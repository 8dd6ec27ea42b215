/-
  What a node reads, and what is made of it.

  * `Node.slots`: the input pins that a node reads, by their indices.
  * `Compilation.Made`: what may be emitted for a node, given what it reads.
  * `plan_eq_ok_iff`: a plan is what may be made of the slots of a node.
  * `Graph.linkInto?`: the link that an operand comes through.  Without one it
    is `Compilation.unlinked`; with one it is a value of the node at which the
    link begins (`operandNo_eq_ok_iff`).
-/
import Mathlib.Data.List.Forall2
import Shading.Proofs.Builders

namespace Shading

/-- The input pins that a node reads, by their indices. -/
def Node.slots (r : TypeRegistry) (n : Node) : List Nat :=
  match n.kind with
  | .texture | .convert _ | .mask .. | .split _ => [0]
  | .operator .. => [0, 1]
  | .call .. | .voidCall _ | .declaredCall .. => List.range n.inputs.length
  | .pack type => List.range ((r.parse type).components.getD 0)
  | .constant _ | .input | .output => []

/-- The link into the input pin of a node with a given index. -/
def Graph.linkInto? (g : Graph) (n : Node) (i : Nat) : Option Link :=
  (n.inputs[i]?).bind fun p => g.incoming? n.id p.id

theorem Graph.mem_of_linkInto? {g : Graph} {n : Node} {i : Nat} {l : Link}
    (h : g.linkInto? n i = some l) : l ∈ g.links ∧ l.target.node = n.id := by
  obtain ⟨p, -, hp⟩ := Option.bind_eq_some_iff.1 h
  have := List.find?_some hp
  rw [Bool.and_eq_true, beq_iff_eq] at this
  exact ⟨List.mem_of_find?_eq_some hp, this.1⟩

/-! ## Casts -/

namespace ValueType

theorem castFrom_eq_none {a b : ValueType} (h : a.castFrom b = .ok none) : a.same b = true := by
  simp only [castFrom] at h
  split at h
  · cases h
  · split at h
    · assumption
    · simp only [castTarget] at h
      split at h <;> cases h

theorem castFrom_eq_some {a b : ValueType} {type : String} (h : a.castFrom b = .ok (some type)) :
    type = b.name := by
  simp only [castFrom] at h
  split at h
  · cases h
  · split at h
    · cases h
    · simp only [castTarget] at h
      split at h
      · cases h
      · cases h
        rfl

end ValueType

namespace Compilation

variable {c : Compilation} {g : Graph} {n : Node}

/-! ## Operands -/

/-- What a node reads at an input pin without a link. -/
def unlinked (c : Compilation) (n : Node) (i : Nat) : Operand :=
  match n.inputs[i]? with
  | some p => c.defaultOperand n p
  | none => .literal "0" .unknown

/-- The value of an operation, read through an output pin of its node. -/
def readAt (c : Compilation) (producer : Node) (o : Operation) (type : ValueType)
    (pin : Option Pin) : Operand :=
  (pin.bind (c.memberAt? producer o type)).getD (c.wholeValue o type)

/-- The member that an output pin selects of a value of a given type. -/
def member? (c : Compilation) (producer : Node) (type : ValueType) (pin : Option Pin) :
    Option (String × ValueType) :=
  pin.bind fun p =>
    if producer.kind.isSplit then some (p.label, (type.element.map .scalar).getD .unknown)
    else
      match type with
      | .struct name =>
        match c.struct? name with
        | some s => (s.field? p.label).map fun f => (f.name, f.type.bare)
        | none => some (p.label, (c.typeOf? p.type?).getD .unknown)
      | _ => none

theorem member?_congr {c' : Compilation} (hregistry : c'.registry = c.registry)
    (hstruct : ∀ name, c'.struct? name = c.struct? name) (producer : Node) (type : ValueType)
    (pin : Option Pin) : c'.member? producer type pin = c.member? producer type pin := by
  simp only [member?, hstruct, typeOf?, hregistry]

/-- A value is read as a whole, unless a pin selects a member of it. -/
theorem readAt_eq (producer : Node) (o : Operation) (type : ValueType) (pin : Option Pin) :
    c.readAt producer o type pin =
      match c.member? producer type pin with
      | some m => ⟨.member o.reference m.1, m.2, some o.name⟩
      | none => c.wholeValue o type := by
  unfold readAt member?
  cases pin with
  | none => rfl
  | some p =>
    unfold memberAt?
    simp only [Option.bind_some]
    cases producer.kind.isSplit with
    | true => rfl
    | false =>
      cases type with
      | numeric | resource => rfl
      | struct name =>
        simp only [Bool.false_eq_true, if_false]
        cases c.struct? name with
        | none => rfl
        | some s =>
          dsimp only
          cases s.field? p.label <;> rfl

/-- Only splits and structs have members. -/
theorem isSplit_or_isStruct_of_member? {producer : Node} {type : ValueType} {pin : Option Pin}
    {m : String × ValueType} (h : c.member? producer type pin = some m) :
    producer.kind.isSplit = true ∨ type.isStruct = true := by
  obtain ⟨p, -, h⟩ := Option.bind_eq_some_iff.1 h
  split at h
  · exact Or.inl ‹_›
  · split at h
    · exact Or.inr rfl
    · cases h

theorem valueOf_eq_ok_iff {producer : Node} {pin : Option Pin} {x : Operand} :
    c.valueOf producer pin = .ok x ↔
      ∃ o type, c.operation? producer.id = some o ∧ o.type? = some type ∧
        x = c.readAt producer o type pin := by
  unfold valueOf readAt
  cases c.operation? producer.id with
  | none => simp
  | some o =>
    cases ht : o.type? with
    | none => simp [ht]
    | some type => simp [ht, eq_comm]

/-- Where an operand comes from. -/
theorem operandNo_eq_ok_iff {i : Nat} {x : Operand} :
    c.operandNo g n i = .ok x ↔
      (g.linkInto? n i = none ∧ x = c.unlinked n i) ∨
      ∃ l producer, g.linkInto? n i = some l ∧ g.node? l.source.node = some producer ∧
        c.valueOf producer (producer.pin? l.source.pin) = .ok x := by
  unfold operandNo operandAt linkValue Graph.linkInto? unlinked Graph.node
  cases n.inputs[i]? with
  | none => simp [eq_comm]
  | some p =>
    cases hl : g.incoming? n.id p.id with
    | none => simp [hl, eq_comm]
    | some l =>
      cases hp : g.node? l.source.node with
      | none => simp [hl, hp]
      | some producer => simp [hl, hp]

theorem operandsNo_eq_ok_iff {is : List Nat} {xs : List Operand} :
    c.operandsNo g n is = .ok xs ↔ List.Forall₂ (fun i x => c.operandNo g n i = .ok x) is xs := by
  induction is generalizing xs with
  | nil => simp [operandsNo, eq_comm]
  | cons i rest ih =>
    rw [operandsNo, List.forall₂_cons_left_iff]
    cases hx : c.operandNo g n i with
    | error e => simp
    | ok x =>
      cases hrest : c.operandsNo g n rest with
      | error e =>
        simp only [Except.map, reduceCtorEq, false_iff, not_exists, not_and]
        intro y ys hy hys
        rw [← ih] at hys
        rw [hrest] at hys
        cases hys
      | ok ys =>
        simp only [Except.map, Except.ok.injEq]
        constructor
        · rintro rfl
          exact ⟨x, ys, rfl, ih.1 hrest, rfl⟩
        · rintro ⟨y, zs, rfl, hzs, rfl⟩
          rw [← ih, hrest] at hzs
          rw [Except.ok.inj hzs]

theorem exists_operandNo_of_mem {is : List Nat} {xs : List Operand}
    (h : List.Forall₂ (fun i x => c.operandNo g n i = .ok x) is xs) {x : Operand} (hx : x ∈ xs) :
    ∃ i, c.operandNo g n i = .ok x := by
  induction h with
  | nil => cases hx
  | cons hi _ ih =>
    rcases List.mem_cons.1 hx with rfl | hx
    · exact ⟨_, hi⟩
    · exact ih hx

theorem operandsNo_singleton {i : Nat} {xs : List Operand} (h : c.operandsNo g n [i] = .ok xs) :
    ∃ x, c.operandNo g n i = .ok x ∧ xs = [x] := by
  obtain ⟨x, _, hx, hnil, rfl⟩ := List.forall₂_cons_left_iff.1 (operandsNo_eq_ok_iff.1 h)
  cases hnil
  exact ⟨x, hx, rfl⟩

theorem operandsNo_pair {i j : Nat} {xs : List Operand} (h : c.operandsNo g n [i, j] = .ok xs) :
    ∃ x y, c.operandNo g n i = .ok x ∧ c.operandNo g n j = .ok y ∧ xs = [x, y] := by
  obtain ⟨x, _, hx, hrest, rfl⟩ := List.forall₂_cons_left_iff.1 (operandsNo_eq_ok_iff.1 h)
  obtain ⟨y, hy, rfl⟩ := operandsNo_singleton (operandsNo_eq_ok_iff.2 hrest)
  exact ⟨x, y, hx, hy, rfl⟩

/-- Operands can be read together if each of them can. -/
theorem operandsNo_isOk_iff {is : List Nat} :
    (∃ xs, c.operandsNo g n is = .ok xs) ↔ ∀ i ∈ is, ∃ x, c.operandNo g n i = .ok x := by
  simp only [operandsNo_eq_ok_iff]
  induction is with
  | nil => simp
  | cons i rest ih =>
    rw [List.forall_mem_cons, ← ih]
    constructor
    · rintro ⟨_, h⟩
      cases h with
      | cons hx hxs => exact ⟨⟨_, hx⟩, _, hxs⟩
    · rintro ⟨⟨x, hx⟩, xs, hxs⟩
      exact ⟨x :: xs, .cons hx hxs⟩

/-- All input pins, by their indices. -/
theorem operands_eq : c.operands g n = c.operandsNo g n (List.range n.inputs.length) := by
  have key : ∀ (pins before : List Pin), n.inputs = before ++ pins →
      c.operandsAt g n pins =
        c.operandsNo g n ((List.range pins.length).map (before.length + ·)) := by
    intro pins
    induction pins with
    | nil => exact fun _ _ => rfl
    | cons p rest ih =>
      intro before h
      have hp : n.inputs[before.length]? = some p := by rw [h]; simp
      have htail := ih (before ++ [p]) (by simp [h])
      rw [operandsAt, List.length_cons, List.range_succ_eq_map, List.map_cons, operandsNo, htail,
        operandNo, Nat.add_zero, hp]
      have hshift : (List.range rest.length).map ((before.length + ·) ∘ Nat.succ) =
          (List.range rest.length).map ((before ++ [p]).length + ·) := by
        refine List.map_congr_left fun i _ => ?_
        simp only [Function.comp_apply, List.length_append, List.length_singleton]
        omega
      rw [List.map_map, hshift]
  have hall := key n.inputs [] rfl
  rw [List.length_nil, List.map_congr_left fun i _ => Nat.zero_add i, List.map_id'] at hall
  exact hall

/-! ## Plans -/

theorem arity_eq_ok_iff {type : String} {size : Nat} :
    c.arity n type = .ok size ↔
      (c.registry.parse type).components = some size ∧ 1 ≤ size ∧ size ≤ 4 := by
  unfold arity
  cases (c.registry.parse type).components with
  | none => simp
  | some m =>
    by_cases hm : 1 ≤ m ∧ m ≤ 4
    · simp only [hm, decide_true, Bool.and_self, if_true, Except.ok.injEq, Option.some.injEq]
      constructor
      · rintro rfl; exact ⟨rfl, hm⟩
      · exact fun h => h.1
    · simp only [Option.some.injEq]
      rw [if_neg (by simpa using hm)]
      constructor
      · intro h; cases h
      · rintro ⟨rfl, h⟩; exact absurd h hm

/-- The casts that take two operands of an operator to the type of its
    result. -/
def Casts (a b type : ValueType) (left right : Option String) : Prop :=
  if a.needCast b then a.castFrom type = .ok left ∧ b.castFrom type = .ok right
  else left = none ∧ right = none

/-- **Which casts an operator has:** those to its own type, if its operands need
    any. -/
theorem Casts.mem_iff {a b type : ValueType} {left right : Option String}
    (h : Casts a b type left right) {name : String} :
    name ∈ left.toList ++ right.toList ↔ a.needCast b = true ∧ name = type.name := by
  simp only [Casts] at h
  split at h
  · rename_i hneed
    simp only [hneed, true_and]
    constructor
    · intro hmem
      rw [List.mem_append, Option.mem_toList, Option.mem_toList] at hmem
      rcases hmem with hleft | hright
      · exact ValueType.castFrom_eq_some (hleft ▸ h.1)
      · exact ValueType.castFrom_eq_some (hright ▸ h.2)
    · rintro rfl
      cases hleft : left with
      | some name =>
        rw [hleft] at h
        simp [ValueType.castFrom_eq_some h.1]
      | none =>
        cases hright : right with
        | some name =>
          rw [hright] at h
          simp [ValueType.castFrom_eq_some h.2]
        | none =>
          -- operands of one type need no casts
          rw [hleft, hright] at h
          have hl := ValueType.castFrom_eq_none h.1
          have hr := ValueType.castFrom_eq_none h.2
          simp_all [ValueType.needCast, ValueType.same]
  · rename_i hneed
    simp [h.1, h.2, hneed]

theorem ofOperator_eq_ok_iff {op : String} {left right : Operand} {type : ValueType}
    {em : Emission} :
    Emission.ofOperator op left right type = .ok em ↔
      ∃ l r, Casts left.type right.type type l r ∧
        em = .value "op" type (.binary op (left.expr.castTo l) (right.expr.castTo r))
          [left, right] := by
  unfold Emission.ofOperator Casts
  split
  · cases left.type.castFrom type with
    | error e => simp
    | ok l => cases right.type.castFrom type <;> simp [eq_comm]
  · simp [Expr.castTo, eq_comm]

/-- The type of a constant. -/
def constantType? (r : TypeRegistry) (n : Node) (type : String) : Option ValueType :=
  (r.parse? type).or ((n.outputs.head?.bind (·.type?)).bind r.parse?)

/-- The text of a constant. -/
def constantText (n : Node) : String :=
  ((n.outputs.head?.bind (·.default?)).bind Text.content).getD "0"

/-- What may be emitted for a node that has read `xs` at its slots. -/
inductive Made (c : Compilation) (n : Node) : List Operand → Emission → Prop
  | sample {x} : n.kind = .texture → Made c n [x] (.sample x)
  | operator {op type x y l r} : n.kind = .operator op type →
      Casts x.type y.type (c.registry.parse type) l r →
      Made c n [x, y] (.value "op" (c.registry.parse type)
        (.binary op (x.expr.castTo l) (y.expr.castTo r)) [x, y])
  | call {function type xs} : n.kind = .call function type →
      Made c n xs (.ofCall function xs (some (c.registry.parse type)) true)
  | voidCall {function xs} : n.kind = .voidCall function →
      Made c n xs (.ofCall function xs none true)
  | declaredCall {function type source xs} : n.kind = .declaredCall function type source →
      Made c n xs (.ofCall function xs (c.typeOf? type) false)
  | convert {last x} : n.kind = .convert last →
      Made c n [x]
        (.value "convert" (.floats 4) (.call "float4" [x.expr, .literal last.literal]) [x])
  | mask {components type size x} : n.kind = .mask components type →
      c.arity n type = .ok size →
      Made c n [x] (.value "mask" (.floats size) (.member x.expr.operand components) [x])
  | pack {type size xs} : n.kind = .pack type → c.arity n type = .ok size →
      Made c n xs (.value "pack" (.floats size)
        (.call (ValueType.floats size).name (xs.map (·.expr))) xs)
  | split {type x} : n.kind = .split type →
      Made c n [x] (.synonym x.expr.operand
        (if ((c.registry.parse? type).getD .unknown).isUnknown then x.type
          else (c.registry.parse? type).getD .unknown))
  | constant {type t} : n.kind = .constant type → constantType? c.registry n type = some t →
      Made c n [] (.value "constant" t (.literal (constantText n)) [])
  | input {i} : n.kind = .input → c.inputNode = none → c.inputVar = some i →
      Made c n [] (.stageInput i)
  | output : n.kind = .output → Made c n [] .nothing

theorem map_eq_ok_iff {α β : Type} {x : Except Cause α} {f : α → β} {b : β} :
    x.map f = .ok b ↔ ∃ a, x = .ok a ∧ f a = b := by
  cases x <;> simp [Except.map]

theorem operandsNo_one {x : Operand} (h : c.operandNo g n 0 = .ok x) :
    c.operandsNo g n [0] = .ok [x] := by
  simp only [operandsNo, h, Except.map]

theorem operandsNo_two {x y : Operand} (hx : c.operandNo g n 0 = .ok x)
    (hy : c.operandNo g n 1 = .ok y) : c.operandsNo g n [0, 1] = .ok [x, y] := by
  simp only [operandsNo, hx, hy, Except.map]

theorem planConstant_eq_ok_iff {type : String} {em : Emission} :
    c.planConstant n type = .ok em ↔
      ∃ t, constantType? c.registry n type = some t ∧
        .value "constant" t (.literal (constantText n)) [] = em := by
  unfold planConstant constantType? typeOf?
  dsimp only
  split <;> rename_i ht <;> rw [ht]
  · simp
  · simp [constantText]

theorem planInput_eq_ok_iff {em : Emission} :
    c.planInput n = .ok em ↔
      c.inputNode = none ∧ ∃ i, c.inputVar = some i ∧ .stageInput i = em := by
  unfold planInput
  cases c.inputNode with
  | some id => simp
  | none => cases c.inputVar <;> simp

theorem made_of_plan {em : Emission} (h : c.plan g n = .ok em) :
    ∃ xs, c.operandsNo g n (n.slots c.registry) = .ok xs ∧ c.Made n xs em := by
  unfold plan at h
  unfold Node.slots
  cases hk : n.kind with
  | texture =>
    simp only [hk, map_eq_ok_iff] at h
    obtain ⟨x, hx, rfl⟩ := h
    exact ⟨[x], operandsNo_one hx, .sample hk⟩
  | operator op type =>
    simp only [hk] at h
    cases hx : c.operandNo g n 0 with
    | error e => rw [hx] at h; cases h
    | ok x =>
      cases hy : c.operandNo g n 1 with
      | error e => rw [hx, hy] at h; cases h
      | ok y =>
        rw [hx, hy] at h
        obtain ⟨l, r, hcasts, rfl⟩ := ofOperator_eq_ok_iff.1 h
        exact ⟨[x, y], operandsNo_two hx hy, .operator hk hcasts⟩
  | call function type =>
    simp only [hk, map_eq_ok_iff, operands_eq] at h
    obtain ⟨xs, hxs, rfl⟩ := h
    exact ⟨xs, hxs, .call hk⟩
  | voidCall function =>
    simp only [hk, map_eq_ok_iff, operands_eq] at h
    obtain ⟨xs, hxs, rfl⟩ := h
    exact ⟨xs, hxs, .voidCall hk⟩
  | declaredCall function type source =>
    simp only [hk, map_eq_ok_iff, operands_eq] at h
    obtain ⟨xs, hxs, rfl⟩ := h
    exact ⟨xs, hxs, .declaredCall hk⟩
  | convert last =>
    simp only [hk, map_eq_ok_iff] at h
    obtain ⟨x, hx, rfl⟩ := h
    exact ⟨[x], operandsNo_one hx, .convert hk⟩
  | mask components type =>
    simp only [hk] at h
    cases ha : c.arity n type with
    | error e => rw [ha] at h; cases h
    | ok size =>
      rw [ha] at h
      obtain ⟨x, hx, rfl⟩ := map_eq_ok_iff.1 h
      exact ⟨[x], operandsNo_one hx, .mask hk ha⟩
  | pack type =>
    simp only [hk] at h
    cases ha : c.arity n type with
    | error e => rw [ha] at h; cases h
    | ok size =>
      rw [ha] at h
      obtain ⟨xs, hxs, rfl⟩ := map_eq_ok_iff.1 h
      refine ⟨xs, ?_, .pack hk ha⟩
      simpa only [(arity_eq_ok_iff.1 ha).1, Option.getD_some] using hxs
  | split type =>
    simp only [hk, map_eq_ok_iff] at h
    obtain ⟨x, hx, rfl⟩ := h
    exact ⟨[x], operandsNo_one hx, .split hk⟩
  | constant type =>
    simp only [hk, planConstant_eq_ok_iff] at h
    obtain ⟨t, ht, rfl⟩ := h
    exact ⟨[], rfl, .constant hk ht⟩
  | input =>
    simp only [hk, planInput_eq_ok_iff] at h
    obtain ⟨hnode, i, hi, rfl⟩ := h
    exact ⟨[], rfl, .input hk hnode hi⟩
  | output =>
    simp only [hk] at h
    cases h
    exact ⟨[], rfl, .output hk⟩

theorem plan_of_made {xs : List Operand} {em : Emission}
    (hxs : c.operandsNo g n (n.slots c.registry) = .ok xs) (h : c.Made n xs em) :
    c.plan g n = .ok em := by
  unfold Node.slots at hxs
  unfold plan
  cases h with
  | sample hk | convert hk | split hk =>
    simp only [hk, operandsNo_eq_ok_iff] at hxs ⊢
    cases hxs with
    | cons hx _ => rw [hx]; rfl
  | operator hk hcasts =>
    simp only [hk, operandsNo_eq_ok_iff] at hxs ⊢
    cases hxs with
    | cons hx hxs =>
      cases hxs with
      | cons hy _ =>
        rw [hx, hy]
        exact ofOperator_eq_ok_iff.2 ⟨_, _, hcasts, rfl⟩
  | call hk | voidCall hk | declaredCall hk =>
    simp only [hk] at hxs ⊢
    rw [operands_eq, hxs]
    rfl
  | mask hk ha =>
    simp only [hk, operandsNo_eq_ok_iff] at hxs ⊢
    cases hxs with
    | cons hx _ => rw [ha, hx]; rfl
  | pack hk ha =>
    simp only [hk] at hxs ⊢
    rw [(arity_eq_ok_iff.1 ha).1, Option.getD_some] at hxs
    simp only [ha, hxs, Except.map]
  | constant hk ht => simp only [hk]; exact planConstant_eq_ok_iff.2 ⟨_, ht, rfl⟩
  | input hk hnode hi => simp only [hk]; exact planInput_eq_ok_iff.2 ⟨hnode, _, hi, rfl⟩
  | output hk => simp only [hk]

/-- **A plan is what may be made of the slots of a node.** -/
theorem plan_eq_ok_iff {em : Emission} :
    c.plan g n = .ok em ↔
      ∃ xs, List.Forall₂ (fun i x => c.operandNo g n i = .ok x) (n.slots c.registry) xs ∧
        c.Made n xs em := by
  simp only [← operandsNo_eq_ok_iff]
  exact ⟨made_of_plan, fun ⟨_, hxs, h⟩ => plan_of_made hxs h⟩

end Compilation

end Shading
