/-
  The ways to read what comes into a pin.

  A value may be asked for by the pin, by its index, by the link into it, or by
  the node that is to deliver it.  Ids may repeat, and several links may end at
  one pin.

  * `Graph.FirstInto`, `Graph.FirstNode`: the link and the node that count, the
    first of those that there are.
  * `delivered_of_firstInto`: the first link into a pin is also the first one
    from its source into that pin.
  * `resolutions_agree`: so all ways lead to the same value or the same failure,
    and where no link ends at a pin they differ only in that a struct is refused
    by name.
-/
import Shading.Proofs.Order
import Shading.Proofs.Plan

namespace Shading

namespace Graph

variable {g : Graph}

/-- A link ends at a pin of a node. -/
def Enters (l : Link) (n : Node) (p : Pin) : Prop :=
  l.target.node = n.id ∧ l.target.pin = p.id

/-- The first link that ends at a pin of a node. -/
def FirstInto (g : Graph) (n : Node) (p : Pin) (l : Link) : Prop :=
  ∃ before after, g.links = before ++ l :: after ∧ Enters l n p ∧ ∀ m ∈ before, ¬ Enters m n p

/-- The first node with an id. -/
def FirstNode (g : Graph) (id : String) (n : Node) : Prop :=
  ∃ before after, g.nodes = before ++ n :: after ∧ n.id = id ∧ ∀ m ∈ before, m.id ≠ id

theorem FirstInto.enters {n : Node} {p : Pin} {l : Link} (h : g.FirstInto n p l) :
    ∃ l ∈ g.links, Enters l n p := by
  obtain ⟨before, after, hlinks, hl, -⟩ := h
  exact ⟨l, by simp [hlinks], hl⟩

theorem FirstNode.id_eq {id : String} {n : Node} (h : g.FirstNode id n) : n.id = id := by
  obtain ⟨_, _, _, hid, _⟩ := h
  exact hid

theorem incoming?_eq_some_iff {n : Node} {p : Pin} {l : Link} :
    g.incoming? n.id p.id = some l ↔ g.FirstInto n p l := by
  simp only [incoming?, List.find?_eq_some_iff_append, FirstInto, Enters, Bool.and_eq_true,
    beq_iff_eq, Bool.not_eq_true', Bool.and_eq_false_iff, beq_eq_false_iff_ne, not_and_or]
  tauto

theorem incoming?_eq_none_iff {n : Node} {p : Pin} :
    g.incoming? n.id p.id = none ↔ ∀ l ∈ g.links, ¬ Enters l n p := by
  simp [incoming?, Enters]

theorem node?_eq_some_iff {id : String} {n : Node} : g.node? id = some n ↔ g.FirstNode id n := by
  simp only [node?, List.find?_eq_some_iff_append, FirstNode, beq_iff_eq, Bool.not_eq_true',
    beq_eq_false_iff_ne]
  tauto

/-- The first link into a pin is also the first from its source into the pin. -/
theorem linkBetween?_of_firstInto {n : Node} {p : Pin} {l : Link} (h : g.FirstInto n p l) :
    g.linkBetween? l.source.node n.id p.id = some l := by
  obtain ⟨before, after, hlinks, hl, hbefore⟩ := h
  rw [linkBetween?, List.find?_eq_some_iff_append]
  refine ⟨by simp [hl.1, hl.2], before, after, hlinks, fun m hm => ?_⟩
  have hne := hbefore m hm
  simp only [Enters, not_and] at hne
  simp only [Bool.not_eq_true', Bool.and_eq_false_iff, beq_eq_false_iff_ne]
  tauto

theorem linkBetween?_of_not_enters {n : Node} {p : Pin} (h : ∀ l ∈ g.links, ¬ Enters l n p)
    (producer : String) : g.linkBetween? producer n.id p.id = none := by
  rw [linkBetween?, List.find?_eq_none]
  intro l hl hbetween
  simp only [Bool.and_eq_true, beq_iff_eq] at hbetween
  exact h l hl ⟨hbetween.1.2, hbetween.2⟩

end Graph

namespace Compilation

open Shading.Graph

variable {c : Compilation} {g : Graph} {n q : Node} {p : Pin} {i : Nat} {l : Link}

/-- The operation of a node has a struct for its value. -/
def HoldsStruct (c : Compilation) (n : Node) : Prop :=
  ∃ o name, c.operation? n.id = some o ∧ o.type? = some (.struct name)

theorem yieldsStruct_iff : c.yieldsStruct n = true ↔ c.HoldsStruct n := by
  unfold yieldsStruct HoldsStruct
  cases c.operation? n.id with
  | none => simp
  | some o =>
    cases ht : o.type? with
    | none => simp [ht]
    | some type => cases type <;> simp [ht, ValueType.isStruct]

theorem operandNo_of_input (hp : n.inputs[i]? = some p) :
    c.operandNo g n i = c.operandAt g n p := by
  rw [operandNo, hp]

/-! ## Pins with links -/

theorem operandAt_of_firstInto (h : g.FirstInto n p l) : c.operandAt g n p = c.linkValue g l := by
  rw [operandAt, incoming?_eq_some_iff.2 h]

theorem linkValue_of_firstNode (hq : g.FirstNode l.source.node q) :
    c.linkValue g l = c.valueOf q (q.pin? l.source.pin) := by
  rw [linkValue, node, node?_eq_some_iff.2 hq]

/-- What the node at the source of the first link into a pin delivers there is
    what the link carries. -/
theorem delivered_of_firstInto (h : g.FirstInto n p l) (hq : g.FirstNode l.source.node q) :
    c.delivered g n p (some q) = c.linkValue g l := by
  have hlink := linkBetween?_of_firstInto h
  rw [← hq.id_eq] at hlink
  rw [delivered, hlink, linkValue_of_firstNode hq]

/-! ## Pins without links -/

theorem operandAt_of_not_enters (h : ∀ l ∈ g.links, ¬ Enters l n p) :
    c.operandAt g n p = .ok (c.defaultOperand n p) := by
  rw [operandAt, incoming?_eq_none_iff.2 h]

/-- What is read without a link is a text that the author wrote, or zero. -/
theorem defaultOperand_eq (c : Compilation) (n : Node) (p : Pin) :
    ∃ text type, c.defaultOperand n p = .literal text type :=
  ⟨_, _, rfl⟩

/-- A node without a value is not refused for want of a link. -/
theorem nodeValue_ne_missingSourceLink (pin producer : String) :
    c.nodeValue q ≠ .error (.missingSourceLink pin producer) := by
  unfold nodeValue valueOf
  split
  · simp
  · split <;> simp

theorem delivered_of_not_enters (h : ∀ l ∈ g.links, ¬ Enters l n p) (q : Node) :
    (c.HoldsStruct q → c.delivered g n p (some q) = .error (.missingSourceLink p.id q.id)) ∧
      (¬ c.HoldsStruct q → c.delivered g n p (some q) = c.nodeValue q) := by
  rw [delivered, linkBetween?_of_not_enters h, ← yieldsStruct_iff]
  exact ⟨fun hstruct => if_pos hstruct, fun hstruct => if_neg hstruct⟩

/-! ## Values that may be missing -/

theorem toOption_eq_some_iff {α β : Type} {x : Except α β} {b : β} :
    x.toOption = some b ↔ x = .ok b := by
  cases x <;> simp [Except.toOption]

theorem linkValue?_eq_some_iff {l? : Option Link} {x : Operand} :
    c.linkValue? g l? = some x ↔ ∃ l, l? = some l ∧ c.linkValue g l = .ok x := by
  simp only [linkValue?, Option.bind_eq_some_iff, toOption_eq_some_iff]

theorem linkedOperand?_eq_some_iff {x : Operand} :
    c.linkedOperand? g n p = some x ↔
      (∃ l ∈ g.links, Enters l n p) ∧ c.operandAt g n p = .ok x := by
  rw [linkedOperand?, linkValue?_eq_some_iff]
  constructor
  · rintro ⟨l, hl, hvalue⟩
    have hfirst := incoming?_eq_some_iff.1 hl
    exact ⟨hfirst.enters, (operandAt_of_firstInto hfirst).trans hvalue⟩
  · rintro ⟨⟨l, hmem, hl⟩, hvalue⟩
    cases hincoming : g.incoming? n.id p.id with
    | none => exact absurd hl (incoming?_eq_none_iff.1 hincoming l hmem)
    | some l =>
      rw [operandAt_of_firstInto (incoming?_eq_some_iff.1 hincoming)] at hvalue
      exact ⟨l, rfl, hvalue⟩

/-- **All ways to read what comes into a pin agree.**  If a link ends at the pin,
    the first one counts: to ask by the pin, by its index, by the link or by the
    node at its source gives the same value or the same failure.  If none does,
    pin and index give the same text, and a node that is asked delivers its value
    as a whole unless that is a struct.  The ways that may give nothing give a
    value exactly if the others do, and then the same; by the pin, only a value
    that comes through a link. -/
theorem resolutions_agree (c : Compilation) (g : Graph) (n : Node) (i : Nat) (p : Pin)
    (hp : n.inputs[i]? = some p) :
    (∀ l q, g.FirstInto n p l → g.FirstNode l.source.node q →
      c.delivered g n p (some q) = c.linkValue g l ∧ c.operandAt g n p = c.linkValue g l ∧
        c.operandNo g n i = c.linkValue g l) ∧
    ((∀ l ∈ g.links, ¬ Enters l n p) →
      (c.operandAt g n p = .ok (c.defaultOperand n p) ∧
        c.operandNo g n i = .ok (c.defaultOperand n p) ∧
        ∃ text type, c.defaultOperand n p = .literal text type) ∧
      ∀ q,
        ((∃ pin producer,
          c.delivered g n p (some q) = .error (.missingSourceLink pin producer)) ↔
            c.HoldsStruct q) ∧
        (c.HoldsStruct q →
          c.delivered g n p (some q) = .error (.missingSourceLink p.id q.id)) ∧
        (¬ c.HoldsStruct q → c.delivered g n p (some q) = c.nodeValue q)) ∧
    (∀ producer x, c.delivered? g n p producer = some x ↔ c.delivered g n p producer = .ok x) ∧
    (∀ l? x, c.linkValue? g l? = some x ↔ ∃ l, l? = some l ∧ c.linkValue g l = .ok x) ∧
    (∀ x, c.linkedOperand? g n p = some x ↔
      (∃ l ∈ g.links, Enters l n p) ∧ c.operandAt g n p = .ok x) := by
  refine ⟨fun l q hl hq => ?_, fun hnone => ⟨?_, fun q => ?_⟩, fun producer x =>
    toOption_eq_some_iff, fun l? x => linkValue?_eq_some_iff, fun x => linkedOperand?_eq_some_iff⟩
  · rw [operandNo_of_input hp]
    exact ⟨delivered_of_firstInto hl hq, operandAt_of_firstInto hl, operandAt_of_firstInto hl⟩
  · rw [operandNo_of_input hp, operandAt_of_not_enters hnone]
    exact ⟨rfl, rfl, c.defaultOperand_eq n p⟩
  · obtain ⟨hstruct, hwhole⟩ := delivered_of_not_enters (c := c) hnone q
    refine ⟨⟨?_, fun h => ⟨_, _, hstruct h⟩⟩, hstruct, hwhole⟩
    rintro ⟨pin, producer, hmissing⟩
    by_contra h
    exact nodeValue_ne_missingSourceLink pin producer ((hwhole h).symm.trans hmissing)

end Compilation

namespace Sample

/-- A node with the same id as another. -/
def twin (name : String) : Node :=
  ⟨"a", name, .constant "float", [⟨"o", "", .output, none, none⟩]⟩

/-- A node that two links reach at the same pin. -/
def reached : Node :=
  ⟨"n", "", .output, [⟨"o", "", .output, none, none⟩, ⟨"p", "", .input, none, none⟩]⟩

/-- The first link into a pin comes from one of two nodes with the same id. -/
def forked : Graph where
  nodes := [twin "first", twin "second", ⟨"b", "other", .texture, []⟩, reached]
  links := [⟨"1", ⟨"a", "o"⟩, ⟨"n", "p"⟩⟩, ⟨"2", ⟨"b", "o"⟩, ⟨"n", "p"⟩⟩]

/-- The compilation of that graph once the first of the two is emitted. -/
def forkedState : Compilation :=
  ((Compilation.fresh ⟨⟨[]⟩⟩).addValue (twin "first") "" (.floats 1) (.literal "1.0") true).1

end Sample

theorem resolutions_agree_forked :
    Sample.reached.inputs[0]? = some ⟨"p", "", .input, none, none⟩ ∧
    Sample.forkedState.delivered Sample.forked Sample.reached ⟨"p", "", .input, none, none⟩
        (some (Sample.twin "first")) =
      Sample.forkedState.operandNo Sample.forked Sample.reached 0 ∧
    (Sample.forkedState.operandNo Sample.forked Sample.reached 0).map (·.expr.render) =
      .ok "first" := by
  have hp : Sample.reached.inputs[0]? = some ⟨"p", "", .input, none, none⟩ := rfl
  obtain ⟨hdelivered, -, hindex⟩ := (Compilation.resolutions_agree Sample.forkedState
    Sample.forked Sample.reached 0 _ hp).1 ⟨"1", ⟨"a", "o"⟩, ⟨"n", "p"⟩⟩ (Sample.twin "first")
    ⟨[], _, rfl, ⟨rfl, rfl⟩, by simp⟩ ⟨[], _, rfl, rfl, by simp⟩
  exact ⟨hp, hdelivered.trans hindex.symm, by decide +kernel⟩

end Shading
