/-
  Two runs over the same nodes, the second with definitions in place of names.

  * `Expr.Matches`: one expression is the other with expressions in place of
    names, up to grouping.
  * `Compilation.Parallel`: two compilations have the same nodes bound to
    operations that match.
  * `Parallel.operandNo`, `Parallel.plan`: then nodes read values that match, and
    what is made of them matches.
  * `Parallel.step`: emitting a node in both keeps them parallel.
-/
import Shading.Proofs.Expressions
import Shading.Proofs.Statements

namespace Shading

theorem forall₂_getElem? {α β : Type} {R : α → β → Prop} {as : List α} {bs : List β}
    (h : List.Forall₂ R as bs) {i : Nat} {a : α} (ha : as[i]? = some a) :
    ∃ b, bs[i]? = some b ∧ R a b := by
  obtain ⟨hlen, hget⟩ := List.forall₂_iff_get.1 h
  obtain ⟨hi, rfl⟩ := List.getElem?_eq_some_iff.1 ha
  exact ⟨bs[i], List.getElem?_eq_getElem (hlen ▸ hi), hget i hi (hlen ▸ hi)⟩

variable {f : String → Expr} {ρ : String → String}

/-! ## What matches -/

/-- Up to grouping, `e'` is `e` with expressions in place of names. -/
def Expr.Matches (f : String → Expr) (ρ : String → String) (e e' : Expr) : Prop :=
  e'.tree = e.tree.bind f ρ

namespace Expr.Matches

variable {e e' l l' r r' : Expr}

theorem literal (text : String) : (Expr.literal text).Matches f ρ (.literal text) := rfl

theorem member (h : e.Matches f ρ e') (field : String) :
    (Expr.member e field).Matches f ρ (.member e' field) := by
  rw [Matches, tree, tree, bind, h]

theorem operand (h : e.Matches f ρ e') : e.operand.Matches f ρ e'.operand := by
  rw [Matches, tree_operand, tree_operand, h]

theorem castTo (h : e.Matches f ρ e') (type? : Option String) :
    (e.castTo type?).Matches f ρ (e'.castTo type?) := by
  rw [Matches, tree_castTo, tree_castTo, h, bind_castTo]

theorem binary (hl : l.Matches f ρ l') (hr : r.Matches f ρ r') (op : String) :
    (Expr.binary op l r).Matches f ρ (.binary op l' r') := by
  rw [Matches, tree, tree, bind, hl, hr]

theorem call {args args' : List Expr} (h : List.Forall₂ (Matches f ρ) args args')
    (function : String) : (Expr.call function args).Matches f ρ (.call function args') := by
  rw [Matches, tree, tree, bind, trees_eq, trees_eq, bindAll_eq, List.map_map]
  congr 1
  induction h with
  | nil => rfl
  | cons h _ ih => rw [List.map_cons, List.map_cons, ih, h, Function.comp_apply]

theorem sample {texture texture' sampler sampler' : String} (ht : ρ texture = texture')
    (hs : ρ sampler = sampler') (h : e.Matches f ρ e') :
    (Expr.sample texture sampler e).Matches f ρ (.sample texture' sampler' e') := by
  rw [Matches, tree, tree, bind, h, ht, hs]

end Expr.Matches

/-- Operands of one type whose expressions match. -/
structure Operand.Matches (f : String → Expr) (ρ : String → String) (x x' : Operand) : Prop where
  type : x'.type = x.type
  expr : x.expr.Matches f ρ x'.expr

theorem matches_exprs {xs xs' : List Operand} (h : List.Forall₂ (Operand.Matches f ρ) xs xs') :
    List.Forall₂ (Expr.Matches f ρ) (xs.map (·.expr)) (xs'.map (·.expr)) := by
  rw [List.forall₂_map_left_iff, List.forall₂_map_right_iff]
  exact h.imp fun _ _ hx => hx.expr

/-- Operations of one form whose expressions match.  What stands in place of the
    name of one is the expansion of the other. -/
inductive Operation.Matches (f : String → Expr) (ρ : String → String) (o o' : Operation) : Prop
  | value {name name' type e e' inlinable} : o.form = .value name type e inlinable →
      o'.form = .value name' type e' inlinable → e.Matches f ρ e' → ρ name = name' →
      f name = o'.expansion.tree → Matches f ρ o o'
  | effect {e e'} : o.form = .effect e → o'.form = .effect e' → e.Matches f ρ e' →
      Matches f ρ o o'
  | synonym {e e' type} : o.form = .synonym e type → o'.form = .synonym e' type →
      e.Matches f ρ e' → Matches f ρ o o'

namespace Operation.Matches

variable {o o' : Operation}

theorem of_bare (h : o.bare.Matches f ρ o'.bare) : o.Matches f ρ o' := by
  cases h with
  | value ho ho' he hname hf => exact .value ho ho' he hname hf
  | effect ho ho' he => exact .effect ho ho' he
  | synonym ho ho' he => exact .synonym ho ho' he

theorem type? (h : o.Matches f ρ o') : o'.type? = o.type? := by
  cases h with
  | value ho ho' | effect ho ho' | synonym ho ho' => simp only [Operation.type?, ho, ho']

theorem canInline (h : o.Matches f ρ o') : o'.canInline = o.canInline := by
  cases h with
  | value ho ho' | effect ho ho' | synonym ho ho' => simp only [Operation.canInline, ho, ho']

theorem expansion (h : o.Matches f ρ o') {type : ValueType} (ht : o.type? = some type) :
    o.reference.Matches f ρ o'.expansion := by
  cases h with
  | value ho ho' he hname hf =>
    rw [Operation.reference, ho, Expr.Matches, Expr.tree, Expr.bind, hf]
  | effect ho => simp [Operation.type?, ho] at ht
  | synonym ho ho' he => simpa only [Operation.reference, Operation.expansion, ho, ho'] using he

/-- A value that is never expanded matches by its reference. -/
theorem reference (h : o.Matches f ρ o') {type : ValueType} (ht : o.type? = some type)
    (hi : o.canInline = false) : o.reference.Matches f ρ o'.reference := by
  have hexpansion : o'.expansion = o'.reference := by
    rw [← h.canInline] at hi
    cases hf : o'.form <;> simp [Operation.expansion, hf, hi]
  exact hexpansion ▸ h.expansion ht

end Operation.Matches

/-- Emissions of one form whose expressions match. -/
inductive Emission.Matches (f : String → Expr) (ρ : String → String) : Emission → Emission → Prop
  | nothing : Matches f ρ .nothing .nothing
  | stageInput {i} : Matches f ρ (.stageInput i) (.stageInput i)
  | sample {x x'} : x.Matches f ρ x' → Matches f ρ (.sample x) (.sample x')
  | value {fallback type e e' xs xs'} : e.Matches f ρ e' →
      Matches f ρ (.value fallback type e xs) (.value fallback type e' xs')
  | effect {e e' xs xs'} : e.Matches f ρ e' → Matches f ρ (.effect e xs) (.effect e' xs')
  | synonym {e e' type} : e.Matches f ρ e' → Matches f ρ (.synonym e type) (.synonym e' type)

theorem matches_ofCall {xs xs' : List Operand} (h : List.Forall₂ (Operand.Matches f ρ) xs xs')
    (function : String) (type? : Option ValueType) (counted : Bool) :
    (Emission.ofCall function xs type? counted).Matches f ρ
      (.ofCall function xs' type? counted) := by
  cases type? with
  | none => exact .effect (.call (matches_exprs h) function)
  | some type => exact .value (.call (matches_exprs h) function)

/-! ## Parallel compilations -/

namespace Compilation

variable {g : Graph} {done : List Node} {n : Node} {c c' d d' : Compilation} {em em' : Emission}

/-- Names are replaced as the operations and resources of two compilations say,
    which stand at the same places. -/
structure Translates (f : String → Expr) (ρ : String → String) (c c' : Compilation) : Prop where
  value : ∀ (i : Nat) (o o' : Operation) (name name' : String),
    (c.table.operations.map Operation.bare)[i]? = some o →
    (c'.table.operations.map Operation.bare)[i]? = some o' → o.ownName? = some name →
    o'.ownName? = some name' → ρ name = name' ∧ f name = o'.expansion.tree
  view : ∀ (i : Nat) (v v' : View), c.table.resourceViews[i]? = some v →
    c'.table.resourceViews[i]? = some v' → ρ v.name = v'.name
  sampler : ∀ (i : Nat) (s s' : Sampler), c.table.samplers[i]? = some s →
    c'.table.samplers[i]? = some s' → ρ s.name = s'.name

theorem Translates.of_follows (h : Translates f ρ d d') (hc : c.Follows d) (hc' : c'.Follows d') :
    Translates f ρ c c' := by
  have hkeep : ∀ {α : Type} {l more : List α} {i : Nat} {a : α}, l <+: more → l[i]? = some a →
      more[i]? = some a := by
    rintro α l _ i a ⟨rest, rfl⟩ ha
    rw [List.getElem?_append_left (List.getElem?_eq_some_iff.1 ha).1, ha]
  constructor
  · intro i o o' name name' ho ho'
    exact h.value i o o' name name' (hkeep hc.operations ho) (hkeep hc'.operations ho')
  · intro i v v' hv hv'
    exact h.view i v v' (hkeep hc.resourceViews hv) (hkeep hc'.resourceViews hv')
  · intro i s s' hs hs'
    exact h.sampler i s s' (hkeep hc.samplers hs) (hkeep hc'.samplers hs')

/-- Two compilations that have emitted the same nodes, the second with
    definitions in place of names. -/
structure Parallel (f : String → Expr) (ρ : String → String) (done : List Node)
    (c c' : Compilation) : Prop where
  named : c.inline = false
  inlined : c'.inline = true
  registry : c'.registry = c.registry
  struct? : ∀ name, c'.struct? name = c.struct? name
  inputVar : c'.inputVar = c.inputVar
  inputNode : c'.inputNode = c.inputNode
  bindings : c'.bindings = c.bindings
  views : c'.table.resourceViews.length = c.table.resourceViews.length
  samplers : c'.table.samplers.length = c.table.samplers.length
  operations : List.Forall₂ (Operation.Matches f ρ) (c.table.operations.map Operation.bare)
    (c'.table.operations.map Operation.bare)
  aliased : Aliased done c

/-- The operation of an emission comes last. -/
theorem Emitted.getElem?_last (h : c.Emitted n em d) {o : Operation}
    (ho : em.operation? c.table n = some o) :
    (d.table.operations.map Operation.bare)[c.table.operations.length]? = some o := by
  rw [h.operations, ho, Option.toList_some, List.getElem?_append_right (by simp)]
  simp

namespace Parallel

variable (h : Parallel f ρ done c c')
include h

theorem length : c'.table.operations.length = c.table.operations.length := by
  simpa using h.operations.length_eq.symm

/-- A node is bound to operations that match. -/
theorem operation? {id : String} {o : Operation} (ho : c.operation? id = some o) :
    ∃ o', c'.operation? id = some o' ∧ o.Matches f ρ o' := by
  obtain ⟨i, hi, hget⟩ := Option.bind_eq_some_iff.1 ho
  have hbare : (c.table.operations.map Operation.bare)[i]? = some o.bare := by
    rw [List.getElem?_map, hget, Option.map_some]
  obtain ⟨_, hget', hmatch⟩ := forall₂_getElem? h.operations hbare
  rw [List.getElem?_map, Option.map_eq_some_iff] at hget'
  obtain ⟨o', ho', rfl⟩ := hget'
  refine ⟨o', ?_, hmatch.of_bare⟩
  rw [Compilation.operation?, h.bindings, hi, Option.bind_some, ho']

/-- What is read of operations that match, matches. -/
theorem readAt {producer : Node} {o o' : Operation} {type : ValueType} (ho : o.Matches f ρ o')
    (ht : o.type? = some type) (hs : producer.kind.isSplit = true → o.isSynonym = true)
    (pin : Option Pin) :
    (c.readAt producer o type pin).Matches f ρ (c'.readAt producer o' type pin) := by
  rw [readAt_eq, readAt_eq, member?_congr h.registry h.struct?]
  cases hm : c.member? producer type pin with
  | none =>
    -- a whole value is read by its name in one, and by its expansion in the other
    refine ⟨rfl, ?_⟩
    simp only [wholeValue, h.named, h.inlined, if_true, Bool.false_eq_true, if_false]
    exact ho.expansion ht
  | some m => exact ⟨rfl, (ho.reference ht (canInline_of_member? hm ht hs)).member m.1⟩

theorem valueOf {producer : Node} (hp : producer ∈ done) {pin : Option Pin} {x : Operand}
    (hx : c.valueOf producer pin = .ok x) :
    ∃ x', c'.valueOf producer pin = .ok x' ∧ x.Matches f ρ x' := by
  obtain ⟨o, type, ho, ht, rfl⟩ := valueOf_eq_ok_iff.1 hx
  obtain ⟨o', ho', hmatch⟩ := h.operation? ho
  refine ⟨_, valueOf_eq_ok_iff.2 ⟨o', type, ho', hmatch.type?.trans ht, rfl⟩, ?_⟩
  exact h.readAt hmatch ht (h.aliased.isSynonym hp ho) pin

/-- A node reads values that match. -/
theorem operandNo (hready : g.Ready done n) {i : Nat} {x : Operand}
    (hx : c.operandNo g n i = .ok x) :
    ∃ x', c'.operandNo g n i = .ok x' ∧ x.Matches f ρ x' := by
  rcases operandNo_eq_ok_iff.1 hx with ⟨hl, rfl⟩ | ⟨l, producer, hl, hp, hvalue⟩
  · have hsame : c'.unlinked n i = c.unlinked n i := by
      simp only [unlinked, defaultOperand, typeOf?, h.registry]
    refine ⟨c.unlinked n i, operandNo_eq_ok_iff.2 (Or.inl ⟨hl, hsame.symm⟩), rfl, ?_⟩
    unfold unlinked
    split
    · exact .literal _
    · exact .literal _
  · obtain ⟨m, hm, hnode⟩ := hready i l hl
    cases hp.symm.trans hnode
    obtain ⟨x', hx', hmatch⟩ := h.valueOf hm hvalue
    exact ⟨x', operandNo_eq_ok_iff.2 (Or.inr ⟨l, producer, hl, hp, hx'⟩), hmatch⟩

theorem operands (hready : g.Ready done n) {is : List Nat} {xs : List Operand}
    (hxs : List.Forall₂ (fun i x => c.operandNo g n i = .ok x) is xs) :
    ∃ xs', List.Forall₂ (fun i x => c'.operandNo g n i = .ok x) is xs' ∧
      List.Forall₂ (Operand.Matches f ρ) xs xs' := by
  induction hxs with
  | nil => exact ⟨[], .nil, .nil⟩
  | cons hx _ ih =>
    obtain ⟨x', hx', hmatch⟩ := h.operandNo hready hx
    obtain ⟨xs', hxs', hmatches⟩ := ih
    exact ⟨x' :: xs', .cons hx' hxs', .cons hmatch hmatches⟩

theorem rootValue {root : Node} (hready : g.Ready done root)
    (hdone : root.kind.isOutput = false → root ∈ done) (hout : c'.outputType = c.outputType)
    {i : Nat} {x : Operand} (hx : c.rootValue g root i = .ok x) :
    ∃ x', c'.rootValue g root i = .ok x' ∧ x.Matches f ρ x' := by
  unfold Compilation.rootValue at hx ⊢
  rw [hout]
  split at hx
  · rename_i hvalue
    rw [if_pos hvalue]
    rw [Bool.and_eq_true, Bool.not_eq_true'] at hvalue
    exact h.valueOf (hdone hvalue.1) hx
  · rename_i hvalue
    rw [if_neg hvalue]
    exact h.operandNo hready hx

/-- What is made of values that match, matches. -/
theorem made {xs xs' : List Operand} (hxs : List.Forall₂ (Operand.Matches f ρ) xs xs')
    (hmade : c.Made n xs em) : ∃ em', c'.Made n xs' em' ∧ em.Matches f ρ em' := by
  have hone : ∀ {x : Operand} {ys : List Operand}, List.Forall₂ (Operand.Matches f ρ) [x] ys →
      ∃ x', x.Matches f ρ x' ∧ ys = [x'] := by
    intro x ys hys
    obtain ⟨x', _, hx, hnil, rfl⟩ := List.forall₂_cons_left_iff.1 hys
    cases hnil
    exact ⟨x', hx, rfl⟩
  have harity : ∀ type, c'.arity n type = c.arity n type := fun type => by
    simp only [arity, h.registry]
  cases hmade with
  | sample hk =>
    obtain ⟨x', hx, rfl⟩ := hone hxs
    exact ⟨_, .sample hk, .sample hx⟩
  | operator hk hcasts =>
    obtain ⟨x', _, hx, hrest, rfl⟩ := List.forall₂_cons_left_iff.1 hxs
    obtain ⟨y', hy, rfl⟩ := hone hrest
    rw [← hx.type, ← hy.type, ← h.registry] at hcasts
    refine ⟨_, .operator hk hcasts, ?_⟩
    rw [h.registry]
    exact .value (.binary (hx.expr.castTo _) (hy.expr.castTo _) _)
  | call hk => exact ⟨_, .call hk, h.registry ▸ matches_ofCall hxs _ _ _⟩
  | voidCall hk => exact ⟨_, .voidCall hk, matches_ofCall hxs _ _ _⟩
  | declaredCall hk =>
    refine ⟨_, .declaredCall hk, ?_⟩
    rw [typeOf?, typeOf?, h.registry]
    exact matches_ofCall hxs _ _ _
  | convert hk =>
    obtain ⟨x', hx, rfl⟩ := hone hxs
    exact ⟨_, .convert hk, .value (.call (.cons hx.expr (.cons (.literal _) .nil)) _)⟩
  | mask hk hsize =>
    obtain ⟨x', hx, rfl⟩ := hone hxs
    exact ⟨_, .mask hk ((harity _).trans hsize), .value (hx.expr.operand.member _)⟩
  | pack hk hsize =>
    exact ⟨_, .pack hk ((harity _).trans hsize), .value (.call (matches_exprs hxs) _)⟩
  | split hk =>
    obtain ⟨x', hx, rfl⟩ := hone hxs
    refine ⟨_, .split hk, ?_⟩
    rw [h.registry, hx.type]
    exact .synonym hx.expr.operand
  | constant hk ht =>
    cases hxs
    exact ⟨_, .constant hk (h.registry ▸ ht), .value (.literal _)⟩
  | input hk hnode hvar =>
    cases hxs
    exact ⟨_, .input hk (h.inputNode ▸ hnode) (h.inputVar ▸ hvar), .stageInput⟩
  | output hk =>
    cases hxs
    exact ⟨_, .output hk, .nothing⟩

theorem plan (hready : g.Ready done n) (hplan : c.plan g n = .ok em)
    (hplan' : c'.plan g n = .ok em') : em.Matches f ρ em' := by
  obtain ⟨xs, hxs, hmade⟩ := plan_eq_ok_iff.1 hplan
  obtain ⟨xs', hxs', hmatches⟩ := h.operands hready hxs
  obtain ⟨_, hmade', hmatch⟩ := h.made hmatches hmade
  -- what is read determines the plan, so the second plan is the one that matches
  rw [← h.registry] at hxs'
  have hplanned := plan_eq_ok_iff.2 ⟨xs', hxs', hmade'⟩
  rw [hplan'] at hplanned
  exact Except.ok.inj hplanned ▸ hmatch

/-- The operations that are added match. -/
theorem operation?_matches (hem : c.Emitted n em d) (hem' : c'.Emitted n em' d')
    (hmatch : em.Matches f ρ em') (ht : Translates f ρ d d') :
    List.Forall₂ (Operation.Matches f ρ) (em.operation? c.table n).toList
      (em'.operation? c'.table n).toList := by
  have hvalue : ∀ {name name' : String} {type : ValueType} {e e' : Expr} {i : Bool},
      em.operation? c.table n = some ⟨some n.id, .value name type e i, 0, []⟩ →
      em'.operation? c'.table n = some ⟨some n.id, .value name' type e' i, 0, []⟩ →
      e.Matches f ρ e' → List.Forall₂ (Operation.Matches f ρ) (em.operation? c.table n).toList
        (em'.operation? c'.table n).toList := by
    intro name name' type e e' i ho ho' he
    obtain ⟨hname, hf⟩ := ht.value _ _ _ name name' (hem.getElem?_last ho)
      (h.length ▸ hem'.getElem?_last ho') rfl rfl
    rw [ho, ho']
    exact .cons (.value rfl rfl he hname hf) .nil
  cases hmatch with
  | nothing => exact .nil
  | stageInput => exact .nil
  | value he => exact hvalue rfl rfl he
  | effect he => exact .cons (.effect rfl rfl he) .nil
  | synonym he => exact .cons (.synonym rfl rfl he) .nil
  | sample hx =>
    have hview := ht.view c.table.resourceViews.length (Emission.texture c.table n)
      (Emission.texture c'.table n)
      (by rw [hem.resourceViews, Emission.resourceViews_sample, List.getElem?_concat_length])
      (by rw [hem'.resourceViews, Emission.resourceViews_sample, ← h.views,
        List.getElem?_concat_length])
    have hsampler := ht.sampler c.table.samplers.length (Emission.sampler c.table n)
      (Emission.sampler c'.table n)
      (by rw [hem.samplers, Emission.samplers_sample, List.getElem?_concat_length])
      (by rw [hem'.samplers, Emission.samplers_sample, ← h.samplers,
        List.getElem?_concat_length])
    exact hvalue rfl rfl (.sample hview hsampler hx.expr)

/-- **Emitting a node in both compilations keeps them parallel.** -/
theorem step (hready : g.Ready done n) (hne : ∀ m ∈ done, m.id ≠ n.id)
    (hplan : c.plan g n = .ok em) (hem : c.Emitted n em d) (hplan' : c'.plan g n = .ok em')
    (hem' : c'.Emitted n em' d') (ht : Translates f ρ d d') :
    Parallel f ρ (done ++ [n]) d d' := by
  have hmatch := h.plan hready hplan hplan'
  constructor
  case named => exact hem.inline.trans h.named
  case inlined => exact hem'.inline.trans h.inlined
  case registry => rw [hem.registry, hem'.registry, h.registry]
  case struct? =>
    intro name
    rw [((Follows.refl c).step hem).struct?, ((Follows.refl c').step hem').struct?, h.struct?]
  case inputVar => rw [hem.inputVar, hem'.inputVar, h.inputVar]
  case inputNode =>
    rw [hem.inputNode, hem'.inputNode, h.inputNode]
    cases hmatch <;> rfl
  case bindings =>
    rw [hem.bindings, hem'.bindings, h.bindings]
    unfold Emission.bind
    cases hmatch <;> simp only [Emission.index?, h.length]
  case views =>
    rw [hem.resourceViews, hem'.resourceViews]
    cases hmatch with
    | sample => simp [Emission.resourceViews_sample, h.views]
    | nothing | stageInput | value | effect | synonym => exact h.views
  case samplers =>
    rw [hem.samplers, hem'.samplers]
    cases hmatch with
    | sample => simp [Emission.samplers_sample, h.samplers]
    | nothing | stageInput | value | effect | synonym => exact h.samplers
  case operations =>
    rw [hem.operations, hem'.operations]
    exact List.rel_append h.operations (h.operation?_matches hem hem' hmatch ht)
  case aliased => exact h.aliased.step hne hplan hem

end Parallel

end Compilation

end Shading
