/-
  The types of values, read off a graph.

  * `Graph.HasType`: the type of the value of a node.  Most nodes declare it;
    a split without a type has that of what it splits.
  * `Graph.SlotType`: the type of what a node reads at an input pin.
  * `HasType.unique`, `SlotType.unique`: there is one type at most.
  * `Compilation.Typed`: the nodes that a run has emitted are bound to
    operations of these types, which every node keeps (`Typed.step`).
-/
import Shading.Proofs.Schedule

namespace Shading

/-! ## Types in a graph -/

/-- The struct of the stage with a name. -/
def EntryPoint.struct? (e : EntryPoint) (name : String) : Option Struct :=
  if e.input.name = name then some e.input
  else if e.output.name = name then some e.output
  else none

namespace Node

/-- Whether a node has a value that others can read. -/
def yieldsValue (n : Node) : Bool :=
  match n.kind with
  | .voidCall _ | .output => false
  | .declaredCall _ type _ => (type.bind Text.content).isSome
  | _ => true

/-- The type that a node gives its value. -/
def ownType? (r : TypeRegistry) (e : EntryPoint) (n : Node) : Option ValueType :=
  match n.kind with
  | .texture | .convert _ => some (.floats 4)
  | .operator _ type | .call _ type => some (r.parse type)
  | .declaredCall _ type _ => type.bind r.parse?
  | .mask _ type | .pack type => (r.parse type).components.map .floats
  | .split type => (r.parse? type).filter (!·.isUnknown)
  | .constant type => Compilation.constantType? r n type
  | .input => some (.struct e.input.name)
  | .voidCall _ | .output => none

/-- The type of what is read at an output pin, where the whole value has a given
    type. -/
def pinType (r : TypeRegistry) (e : EntryPoint) (n : Node) (type : ValueType) :
    Option Pin → ValueType
  | none => type
  | some p =>
    if n.kind.isSplit then (type.element.map .scalar).getD .unknown
    else
      match type with
      | .struct name =>
        match e.struct? name with
        | some s => ((s.field? p.label).map fun f => f.type.bare).getD type
        | none => (p.type?.bind r.parse?).getD .unknown
      | _ => type

/-- The type of what is read at an input pin without a link. -/
def unlinkedType (r : TypeRegistry) (n : Node) (i : Nat) : ValueType :=
  match n.inputs[i]? with
  | some p => ((p.type?.bind r.parse?).or (n.kind.type?.bind r.parse?)).getD .unknown
  | none => .unknown

end Node

namespace Graph

variable (r : TypeRegistry) (e : EntryPoint) (g : Graph)

/-- The type of the value of a node. -/
inductive HasType : Node → ValueType → Prop
  | own {n t} : n.ownType? r e = some t → HasType n t
  | unlinkedSplit {n} : n.kind.isSplit = true → n.ownType? r e = none → g.linkInto? n 0 = none →
      HasType n (n.unlinkedType r 0)
  | linkedSplit {n l producer t} : n.kind.isSplit = true → n.ownType? r e = none →
      g.linkInto? n 0 = some l → g.node? l.source.node = some producer → HasType producer t →
      HasType n (producer.pinType r e t (producer.pin? l.source.pin))

/-- The type of what a node reads at the input pin with a given index. -/
inductive SlotType (n : Node) (i : Nat) : ValueType → Prop
  | unlinked : g.linkInto? n i = none → SlotType n i (n.unlinkedType r i)
  | linked {l producer t} : g.linkInto? n i = some l → g.node? l.source.node = some producer →
      HasType r e g producer t →
      SlotType n i (producer.pinType r e t (producer.pin? l.source.pin))

variable {r e g}

/-- **A node has one type at most.** -/
theorem HasType.unique {n : Node} {a b : ValueType} (ha : HasType r e g n a)
    (hb : HasType r e g n b) : a = b := by
  induction ha generalizing b with
  | own h =>
    cases hb with
    | own h' => exact Option.some.inj (h.symm.trans h')
    | unlinkedSplit _ h' | linkedSplit _ h' => rw [h] at h'; cases h'
  | unlinkedSplit _ h hl =>
    cases hb with
    | own h' => rw [h] at h'; cases h'
    | unlinkedSplit => rfl
    | linkedSplit _ _ hl' => rw [hl] at hl'; cases hl'
  | linkedSplit _ h hl hp _ ih =>
    cases hb with
    | own h' => rw [h] at h'; cases h'
    | unlinkedSplit _ _ hl' => rw [hl] at hl'; cases hl'
    | linkedSplit _ _ hl' hp' ht =>
      cases hl.symm.trans hl'
      cases hp.symm.trans hp'
      rw [ih ht]

theorem SlotType.unique {n : Node} {i : Nat} {a b : ValueType} (ha : SlotType r e g n i a)
    (hb : SlotType r e g n i b) : a = b := by
  cases ha with
  | unlinked hl =>
    cases hb with
    | unlinked => rfl
    | linked hl' => rw [hl] at hl'; cases hl'
  | linked hl hp ht =>
    cases hb with
    | unlinked hl' => rw [hl] at hl'; cases hl'
    | linked hl' hp' ht' =>
      cases hl.symm.trans hl'
      cases hp.symm.trans hp'
      rw [ht.unique ht']

/-- A split without a type has that of what it splits. -/
theorem SlotType.hasType {n : Node} {t : ValueType} (h : SlotType r e g n 0 t)
    (hs : n.kind.isSplit = true) (hown : n.ownType? r e = none) : HasType r e g n t := by
  cases h with
  | unlinked hl => exact .unlinkedSplit hs hown hl
  | linked hl hp ht => exact .linkedSplit hs hown hl hp ht

end Graph

/-! ## Types in a run -/

namespace Compilation

variable {r : TypeRegistry} {e : EntryPoint} {g : Graph} {c d d' : Compilation}

theorem unlinked_type (n : Node) (i : Nat) :
    (c.unlinked n i).type = n.unlinkedType c.registry i := by
  unfold unlinked Node.unlinkedType
  cases n.inputs[i]? <;> rfl

/-- The types that values have where they are read. -/
theorem readAt_type (hr : c.registry = r) (hs : ∀ name, c.struct? name = e.struct? name)
    (n : Node) (o : Operation) (type : ValueType) (pin : Option Pin) :
    (c.readAt n o type pin).type = n.pinType r e type pin := by
  cases pin with
  | none => rfl
  | some p =>
    unfold readAt Node.pinType memberAt?
    rw [Option.bind_some]
    cases n.kind.isSplit with
    | true => rfl
    | false =>
      cases type with
      | numeric | resource => rfl
      | struct name =>
        simp only [Bool.false_eq_true, if_false, hs]
        cases e.struct? name with
        | none => subst hr; rfl
        | some s => cases hf : s.field? p.label <;> simp [hf, wholeValue]

/-- What a node is bound to has the type of the node. -/
theorem Made.exists_bound {n : Node} {xs : List Operand} {em : Emission} (h : c.Made n xs em)
    (hstage : ∃ o, c.inputOperation? = some o ∧ o.type? = some (.struct e.input.name))
    (hout : n.kind.isOutput = false) :
    ∃ o, em.bound? c.table n = some o ∧ o.type?.isSome = n.yieldsValue ∧
      ((n.kind.isSplit = false ∧ o.type? = n.ownType? c.registry e) ∨
        (n.kind.isSplit = true ∧ ∃ x, xs = [x] ∧
          o.type? = some ((n.ownType? c.registry e).getD x.type))) := by
  unfold Node.yieldsValue Node.ownType?
  cases h with
  | sample hk | operator hk | call hk | voidCall hk | convert hk =>
    rw [hk]
    exact ⟨_, rfl, rfl, Or.inl ⟨rfl, rfl⟩⟩
  | declaredCall hk =>
    rename_i function type source
    rw [hk]
    cases ht : c.typeOf? type with
    | none =>
      refine ⟨_, rfl, ?_, Or.inl ⟨rfl, ht.symm⟩⟩
      cases type with
      | none => rfl
      | some text =>
        rw [typeOf?, Option.bind_some, TypeRegistry.parse?, Option.map_eq_none_iff] at ht
        simp only [Option.bind_some, ht]
        rfl
    | some t =>
      refine ⟨_, rfl, ?_, Or.inl ⟨rfl, ht.symm⟩⟩
      obtain ⟨text, rfl, htext⟩ := Option.bind_eq_some_iff.1 ht
      obtain ⟨content, hcontent, -⟩ := Option.map_eq_some_iff.1 htext
      simp [hcontent, Operation.type?]
  | mask hk ha | pack hk ha =>
    rw [hk]
    refine ⟨_, rfl, rfl, Or.inl ⟨rfl, ?_⟩⟩
    simp only [(arity_eq_ok_iff.1 ha).1]
    rfl
  | split hk =>
    rename_i type x
    rw [hk]
    refine ⟨_, rfl, rfl, Or.inr ⟨rfl, x, rfl, ?_⟩⟩
    cases hp : c.registry.parse? type with
    | none => simp only [hp]; rfl
    | some t =>
      simp only [hp, Option.getD_some, Option.filter_some, Operation.type?]
      cases t.isUnknown <;> rfl
  | constant hk ht =>
    rw [hk]
    exact ⟨_, rfl, rfl, Or.inl ⟨rfl, ht.symm⟩⟩
  | input hk _ hi =>
    obtain ⟨o, ho, htype⟩ := hstage
    rw [inputOperation?, hi, Option.bind_some] at ho
    rw [hk]
    exact ⟨o, ho, by rw [htype]; rfl, Or.inl ⟨rfl, htype⟩⟩
  | output hk => rw [hk] at hout; cases hout

/-- The nodes `done` are bound to operations whose types are those of the
    nodes. -/
structure Typed (r : TypeRegistry) (e : EntryPoint) (g : Graph) (done : List Node)
    (d : Compilation) : Prop where
  nodes : ∀ n ∈ done, n ∈ g.nodes
  registry : d.registry = r
  struct? : ∀ name, d.struct? name = e.struct? name
  stage : ∃ o, d.inputOperation? = some o ∧ o.type? = some (.struct e.input.name)
  bound : ∀ n ∈ done, n.kind.isOutput = false →
    ∃ o, d.operation? n.id = some o ∧ o.type?.isSome = n.yieldsValue ∧
      ∀ t, o.type? = some t → Graph.HasType r e g n t
  mem_of_isBound : ∀ id, d.isBound id = true → ∃ n ∈ done, n.id = id ∧ n.kind.isOutput = false
  input : d.inputNode.isSome = true ↔ ∃ n ∈ done, n.kind = .input

namespace Typed

variable {done : List Node} {n : Node}

/-- What can be read of a node that is done, and of which type it is. -/
theorem valueOf (h : Typed r e g done d) (hids : g.DistinctIds) {producer : Node}
    (hp : producer ∈ done) (pin : Option Pin) :
    ((∃ x, d.valueOf producer pin = .ok x) ↔ producer.yieldsValue = true) ∧
      ∀ x, d.valueOf producer pin = .ok x →
        ∃ t, Graph.HasType r e g producer t ∧ x.type = producer.pinType r e t pin := by
  simp only [valueOf_eq_ok_iff]
  cases hout : producer.kind.isOutput with
  | false =>
    obtain ⟨o, ho, hsome, htype⟩ := h.bound producer hp hout
    constructor
    · rw [← hsome, Option.isSome_iff_exists]
      constructor
      · rintro ⟨_, o', t, ho', ht, -⟩
        cases ho.symm.trans ho'
        exact ⟨t, ht⟩
      · rintro ⟨t, ht⟩
        exact ⟨_, o, t, ho, ht, rfl⟩
    · rintro _ ⟨o', t, ho', ht, rfl⟩
      cases ho.symm.trans ho'
      exact ⟨t, htype t ht, readAt_type h.registry h.struct? producer o t pin⟩
  | true =>
    -- nothing is bound to the stage output
    have hnone : ∀ o, d.operation? producer.id ≠ some o := by
      intro o ho
      obtain ⟨i, hi, -⟩ := Option.bind_eq_some_iff.1 ho
      have hbound : d.isBound producer.id = true := by simp [isBound, Dict.contains, hi]
      obtain ⟨m, hm, hid, hm'⟩ := h.mem_of_isBound producer.id hbound
      rw [hids.eq_of_id (h.nodes m hm) (h.nodes producer hp) hid, hout] at hm'
      cases hm'
    have hyields : producer.yieldsValue = false := by
      revert hout
      unfold Node.yieldsValue
      cases producer.kind <;> simp [NodeKind.isOutput]
    refine ⟨⟨?_, fun hy => ?_⟩, ?_⟩
    · rintro ⟨_, o, _, ho, -⟩
      exact absurd ho (hnone o)
    · rw [hyields] at hy; cases hy
    · rintro _ ⟨o, _, ho, -⟩
      exact absurd ho (hnone o)

/-- What is read at an input pin has the type of the pin. -/
theorem slotType (h : Typed r e g done d) (hids : g.DistinctIds) (hready : g.Ready done n)
    {i : Nat} {x : Operand} (hx : d.operandNo g n i = .ok x) :
    Graph.SlotType r e g n i x.type := by
  rcases operandNo_eq_ok_iff.1 hx with ⟨hl, rfl⟩ | ⟨l, producer, hl, hp, hvalue⟩
  · rw [unlinked_type, h.registry]
    exact .unlinked hl
  · obtain ⟨m, hm, hnode⟩ := hready i l hl
    cases hp.symm.trans hnode
    obtain ⟨t, ht, htype⟩ := (h.valueOf hids hm _).2 x hvalue
    rw [htype]
    exact .linked hl hp ht

/-- What an input pin reads is there exactly if the source of its link has a
    value. -/
theorem operandNo_isOk_iff (h : Typed r e g done d) (hids : g.DistinctIds)
    (hready : g.Ready done n) (i : Nat) :
    (∃ x, d.operandNo g n i = .ok x) ↔
      ∀ l producer, g.linkInto? n i = some l → g.node? l.source.node = some producer →
        producer.yieldsValue = true := by
  simp only [operandNo_eq_ok_iff]
  cases hl : g.linkInto? n i with
  | none =>
    constructor
    · intro _ l producer hl'
      cases hl'
    · exact fun _ => ⟨_, Or.inl ⟨rfl, rfl⟩⟩
  | some l =>
    obtain ⟨m, hm, hnode⟩ := hready i l hl
    have hvalue := (h.valueOf hids hm (m.pin? l.source.pin)).1
    constructor
    · rintro ⟨x, ⟨h, -⟩ | ⟨_, producer, hl', hp, hx⟩⟩ l' producer' hl'' hp'
      · cases h
      · cases hl'
        cases hl''
        cases hp.symm.trans hnode
        cases hp'.symm.trans hnode
        exact hvalue.1 ⟨x, hx⟩
    · intro hyields
      obtain ⟨x, hx⟩ := hvalue.2 (hyields l m rfl hnode)
      exact ⟨x, Or.inr ⟨l, m, rfl, hnode, hx⟩⟩

/-- What is made for a node has a type of the node. -/
theorem hasType_of_made (h : Typed r e g done d) (hids : g.DistinctIds)
    (hready : g.Ready done n) {em : Emission} {xs : List Operand}
    (hxs : List.Forall₂ (fun i x => d.operandNo g n i = .ok x) (n.slots d.registry) xs)
    (hmade : d.Made n xs em) (hout : n.kind.isOutput = false) :
    ∃ o, em.bound? d.table n = some o ∧ o.type?.isSome = n.yieldsValue ∧
      ∀ t, o.type? = some t → Graph.HasType r e g n t := by
  obtain ⟨o, ho, hsome, htype⟩ := hmade.exists_bound h.stage hout
  refine ⟨o, ho, hsome, fun t hot => ?_⟩
  rw [h.registry] at htype
  rcases htype with ⟨-, hown⟩ | ⟨hsplit, x, rfl, hown⟩
  · exact .own (hown ▸ hot)
  · rw [hown, Option.some.injEq] at hot
    cases hdecl : n.ownType? r e with
    | some t' => rw [hdecl] at hot; exact .own (hdecl.trans (congrArg some hot))
    | none =>
      rw [hdecl] at hot
      -- a split reads its first pin
      have hslots : n.slots d.registry = [0] := by
        revert hsplit
        unfold Node.slots
        cases n.kind <;> simp [NodeKind.isSplit]
      rw [hslots] at hxs
      cases hxs with
      | cons hx _ =>
        rw [← hot]
        exact (h.slotType hids hready hx).hasType hsplit hdecl

/-- **A node keeps a run typed.** -/
theorem step (h : Typed r e g done d) (hids : g.DistinctIds) (hn : n ∈ g.nodes)
    (hready : g.Ready done n) (hne : ∀ m ∈ done, m.id ≠ n.id) {em : Emission}
    (hplan : d.plan g n = .ok em) (hem : d.Emitted n em d') : Typed r e g (done ++ [n]) d' := by
  obtain ⟨xs, hxs, hmade⟩ := plan_eq_ok_iff.1 hplan
  have hfollows := (Follows.refl d).step hem
  constructor
  case nodes =>
    intro m hm
    rcases List.mem_append.1 hm with hm | hm
    · exact h.nodes m hm
    · exact List.mem_singleton.1 hm ▸ hn
  case registry => exact hem.registry.trans h.registry
  case struct? => exact fun name => (hfollows.struct? name).trans (h.struct? name)
  case stage =>
    obtain ⟨o, ho, htype⟩ := h.stage
    obtain ⟨i, hi, hget⟩ := Option.bind_eq_some_iff.1 ho
    obtain ⟨o', ho', hbare⟩ := Option.map_eq_some_iff.1 (hfollows.getElem? hget)
    refine ⟨o', by rw [inputOperation?, hem.inputVar, hi]; exact ho', ?_⟩
    rw [← Operation.bare_type?, hbare, Operation.bare_type?, htype]
  case mem_of_isBound =>
    intro id hid
    rw [hem.isBound, hmade.isSome_index?, Bool.or_eq_true, Bool.and_eq_true, beq_iff_eq,
      Bool.not_eq_true'] at hid
    rcases hid with hid | ⟨hid, hout⟩
    · obtain ⟨m, hm, hmid⟩ := h.mem_of_isBound id hid
      exact ⟨m, List.mem_append_left _ hm, hmid⟩
    · exact ⟨n, by simp, hid, hout⟩
  case input =>
    have hstage := hmade.isStageInput_iff
    rw [hem.inputNode]
    by_cases hs : em.isStageInput = true
    · rw [if_pos hs]
      exact ⟨fun _ => ⟨n, by simp, hstage.1 hs⟩, fun _ => rfl⟩
    · rw [if_neg hs, h.input]
      constructor
      · rintro ⟨m, hm, hk⟩
        exact ⟨m, List.mem_append_left _ hm, hk⟩
      · rintro ⟨m, hm, hk⟩
        rcases List.mem_append.1 hm with hm | hm
        · exact ⟨m, hm, hk⟩
        · rw [List.mem_singleton.1 hm] at hk
          exact absurd (hstage.2 hk) hs
  case bound =>
    intro m hm hout
    rcases List.mem_append.1 hm with hm | hm
    · obtain ⟨o, ho, hsome, htype⟩ := h.bound m hm hout
      obtain ⟨o', ho', hbare⟩ := hem.operation?_ne (hne m hm) ho
      have ht := Operation.type?_of_bare hbare
      exact ⟨o', ho', ht ▸ hsome, ht ▸ htype⟩
    · cases List.mem_singleton.1 hm
      obtain ⟨o, ho, hsome, htype⟩ := h.hasType_of_made hids hready hxs hmade hout
      obtain ⟨o', ho', hbare⟩ := hem.operation?_self ho
      have ht := Operation.type?_of_bare hbare
      exact ⟨o', ho', ht ▸ hsome, ht ▸ htype⟩

end Typed

end Compilation

end Shading
