/-
  The casts of operators.

  * `ValueType.Mismatched`: two types that differ, neither of them a scalar.
    Operands of such types are cast.
  * `ValueType.castPrefix`: the cast in front of an operand, if it has another
    type than the result.
  * `Compilation.unmarked`: a compilation without the semantics of the types of
    its operations.
  * `ofOperator_congr`: semantics decide nothing.
  * `operator_casts_exact`: an operator is refused exactly if its operands would
    have to be cast from or to a type that has no casts, and else exactly the
    operands of another type than its own are cast.
-/
import Shading.Proofs.Acceptance
import Shading.Proofs.Footprint

namespace Shading

namespace ValueType

/-- Two types that differ, neither of them a scalar. -/
def Mismatched (a b : ValueType) : Prop :=
  a.bare ≠ b.bare ∧ a.isScalar = false ∧ b.isScalar = false

/-- The cast in front of an operand of type `a` that is to be of type `type`. -/
def castPrefix (a type : ValueType) : String :=
  if a.bare = type.bare then "" else "(" ++ type.name ++ ")"

theorem same_iff {a b : ValueType} : a.same b = true ↔ a.bare = b.bare :=
  beq_iff_eq

theorem needCast_iff {a b : ValueType} : a.needCast b = true ↔ a.Mismatched b := by
  simp only [needCast, Mismatched, Bool.and_eq_true, Bool.not_eq_true', ← Bool.not_eq_true,
    same_iff, and_assoc, ne_eq]

theorem name_bare (a : ValueType) : a.bare.name = a.name := by
  cases a <;> rfl

theorem isUnknown_bare (a : ValueType) : a.bare.isUnknown = a.isUnknown := by
  cases a with
  | numeric shape semantic =>
    cases shape with
    | scalar s => cases s <;> rfl
    | vector | matrix => rfl
  | resource | struct => rfl

theorem bare_bare (a : ValueType) : a.bare.bare = a.bare := by
  cases a <;> rfl

theorem needCast_bare (a b : ValueType) : a.bare.needCast b.bare = a.needCast b := by
  simp only [needCast, same, bare_bare, isScalar_bare]

theorem castFrom_bare (a type : ValueType) : a.bare.castFrom type.bare = a.castFrom type := by
  rw [castFrom, castFrom, castTarget, castTarget, same, same, bare_bare, bare_bare, isResource_bare,
    isResource_bare, isUnknown_bare, name_bare, name_bare]

/-- An operand is written with the cast that its type calls for. -/
theorem render_castTo {a type : ValueType} {cast? : Option String}
    (h : a.castFrom type = .ok cast?) (e : Expr) :
    (e.castTo cast?).render = a.castPrefix type ++ e.render := by
  unfold castPrefix
  cases cast? with
  | none =>
    rw [if_pos (same_iff.1 (castFrom_eq_none h)), String.empty_append]
    rfl
  | some target =>
    obtain rfl := castFrom_eq_some h
    have hne : a.bare ≠ type.bare := by
      intro hsame
      rw [castFrom, same_iff.2 hsame] at h
      split at h <;> simp at h
    rw [if_neg hne]
    rfl

end ValueType

namespace Compilation

open ValueType

variable {c : Compilation} {n : Node} {op : String} {left right left' right' : Operand}
  {type type' : ValueType}

/-! ## Operators that are refused -/

/-- Operands can be taken to a type, or need not be. -/
theorem ofOperator_isOk_iff :
    (∃ em, Emission.ofOperator op left right type = .ok em) ↔
      (left.type.Mismatched right.type → left.type.isResource = false ∧
        right.type.isResource = false ∧ type.isResource = false ∧ type.isUnknown = false) := by
  rw [← needCast_iff, ← exists_casts_iff]
  simp only [ofOperator_eq_ok_iff]
  constructor
  · rintro ⟨-, l, r, hcasts, -⟩
    exact ⟨l, r, hcasts⟩
  · rintro ⟨l, r, hcasts⟩
    exact ⟨_, l, r, hcasts, rfl⟩

theorem operate_of_error {cause : Cause}
    (h : Emission.ofOperator op left right type = .error cause) :
    c.operate n op left right type = (c, .error cause) := by
  rw [operate, Builder.outcome_operatorCall, h, carryOut]

theorem operate_of_ok {em : Emission} (h : Emission.ofOperator op left right type = .ok em) :
    c.operate n op left right type = ((c.apply n em).1, .ok (c.apply n em).2) := by
  rw [operate, Builder.outcome_operatorCall, h, carryOut]

/-- An operator is refused exactly if there is nothing to emit for it. -/
theorem operate_isError_iff :
    (∃ cause, (c.operate n op left right type).2 = .error cause) ↔
      ¬ ∃ em, Emission.ofOperator op left right type = .ok em := by
  cases h : Emission.ofOperator op left right type with
  | error cause => simp [operate_of_error h]
  | ok em => simp [operate_of_ok h]

theorem operate_unchanged {cause : Cause}
    (h : (c.operate n op left right type).2 = .error cause) :
    (c.operate n op left right type).1 = c := by
  cases hem : Emission.ofOperator op left right type with
  | error e => rw [operate_of_error hem]
  | ok em => rw [operate_of_ok hem] at h; cases h

/-- An operator that is not refused is emitted with some casts. -/
theorem operate_eq_ok {i : Option Nat} (h : (c.operate n op left right type).2 = .ok i) :
    ∃ l r, Casts left.type right.type type l r ∧
      c.operate n op left right type =
        ((c.apply n (.value "op" type (.binary op (left.expr.castTo l) (right.expr.castTo r))
          [left, right])).1, .ok (some c.table.operations.length)) := by
  cases hem : Emission.ofOperator op left right type with
  | error e => rw [operate_of_error hem] at h; cases h
  | ok em =>
    obtain ⟨l, r, hcasts, rfl⟩ := ofOperator_eq_ok_iff.1 hem
    exact ⟨l, r, hcasts, operate_of_ok hem⟩

/-! ## Operators that are emitted -/

/-- The text of an operator. -/
theorem render_binary (op : String) {l r : Option String}
    (h : Casts left.type right.type type l r) :
    (left.type.Mismatched right.type →
      (Expr.binary op (left.expr.castTo l) (right.expr.castTo r)).render =
        left.type.castPrefix type ++ left.expr.render ++ " " ++ op ++ " " ++
          (right.type.castPrefix type ++ right.expr.render)) ∧
    (¬ left.type.Mismatched right.type →
      (Expr.binary op (left.expr.castTo l) (right.expr.castTo r)).render =
        left.expr.render ++ " " ++ op ++ " " ++ right.expr.render) := by
  rw [← needCast_iff]
  unfold Casts at h
  constructor
  · intro hneed
    rw [if_pos hneed] at h
    rw [Expr.render, render_castTo h.1, render_castTo h.2]
  · intro hneed
    rw [if_neg hneed] at h
    obtain ⟨rfl, rfl⟩ := h
    rw [Expr.render]
    rfl

/-- A node for which a value is emitted is bound to it. -/
theorem operation?_apply_value (c : Compilation) (n : Node) (fallback : String)
    (type : ValueType) (definition : Expr) (xs : List Operand) :
    ∃ o, (c.apply n (.value fallback type definition xs)).1.operation? n.id = some o ∧
      o.type? = some type ∧ o.definitionText = definition.render := by
  have hops := apply_operations c n (.value fallback type definition xs)
  have hbind : (c.apply n (.value fallback type definition xs)).1.bindings =
      c.bindings.insert n.id c.table.operations.length := by
    rw [apply_eq]
    rfl
  obtain ⟨o, ho, hgrown⟩ := SymbolTable.retained_noteAll
    (Emission.consumer c.table n (.value fallback type definition xs))
    (xs.filterMap Operand.source)
    (c.table.operations ++ [⟨some n.id, .value (c.table.freshName (Text.baseName n.name fallback))
      type definition true, 0, []⟩]) c.table.operations.length _ List.getElem?_concat_length
  refine ⟨o, ?_, ?_, ?_⟩
  · rw [operation?, hbind, Dict.get?_insert, if_pos rfl, Option.bind_some, hops]
    exact ho
  · simp [Operation.type?, hgrown.form]
  · simp [Operation.definitionText, Operation.definition?, hgrown.form]

end Compilation

/-! ## Semantics -/

/-- Two operands that differ in the semantics of their types at most. -/
structure Operand.SameButSemantic (x x' : Operand) : Prop where
  expr : x'.expr = x.expr
  type : x'.type.bare = x.type.bare
  source : x'.source = x.source

/-- The form of an operation without the semantic of its type. -/
def Operation.Form.unmarked : Operation.Form → Operation.Form
  | .value name type definition inlinable => .value name type.bare definition inlinable
  | .effect call => .effect call
  | .synonym target type => .synonym target type.bare

/-- The operation without the semantic of its type. -/
def Operation.unmarked (o : Operation) : Operation :=
  { o with form := o.form.unmarked }

theorem Operation.name_unmarked (o : Operation) : o.unmarked.name = o.name := by
  obtain ⟨node, form, refs, consumers⟩ := o
  cases form <;> rfl

namespace SymbolTable

/-- The table without the semantics of the types of its operations. -/
def unmarked (t : SymbolTable) : SymbolTable :=
  { t with operations := t.operations.map Operation.unmarked }

theorem unmarked_addOperation (t : SymbolTable) (o : Operation) :
    (t.addOperation o).unmarked = t.unmarked.addOperation o.unmarked := by
  unfold addOperation
  rw [Operation.name_unmarked]
  dsimp only
  split
  · simp [unmarked]
  · simp [unmarked, claim]

theorem map_unmarked_noteUse (name consumer : String) (os : List Operation) :
    (noteUse name consumer os).map Operation.unmarked =
      noteUse name consumer (os.map Operation.unmarked) := by
  induction os with
  | nil => rfl
  | cons o rest ih =>
    rw [List.map_cons, noteUse, noteUse, Operation.name_unmarked]
    split
    · rfl
    · rw [List.map_cons, ih]

theorem map_unmarked_noteAll (consumer : String) (names : List String) (os : List Operation) :
    (noteAll consumer names os).map Operation.unmarked =
      noteAll consumer names (os.map Operation.unmarked) := by
  induction names generalizing os with
  | nil => rfl
  | cons name rest ih =>
    refine (ih _).trans ?_
    rw [map_unmarked_noteUse]
    rfl

end SymbolTable

namespace Compilation

variable {c : Compilation} {n : Node} {op : String} {left right left' right' : Operand}
  {type type' : ValueType}

/-- The compilation without the semantics of the types of its operations. -/
def unmarked (c : Compilation) : Compilation :=
  { c with table := c.table.unmarked }

theorem unmarked_noteUses (consumer : String) (xs : List Operand) (t : SymbolTable) :
    (noteUses consumer xs t).unmarked = noteUses consumer xs t.unmarked := by
  rw [noteUses_eq, noteUses_eq]
  unfold SymbolTable.unmarked
  rw [SymbolTable.map_unmarked_noteAll]

/-- A value leaves the same compilation whatever semantic its type has. -/
theorem unmarked_apply_value (c : Compilation) (n : Node) (fallback : String)
    {type type' : ValueType} (htype : type'.bare = type.bare) (definition : Expr)
    {xs xs' : List Operand} (hxs : xs'.filterMap Operand.source = xs.filterMap Operand.source) :
    (c.apply n (.value fallback type' definition xs')).1.unmarked =
      (c.apply n (.value fallback type definition xs)).1.unmarked := by
  have hunmarked : ∀ t ys, (c.apply n (.value fallback t definition ys)).1.unmarked =
      { c with
        bindings := c.bindings.insert n.id c.table.operations.length
        table := noteUses (Emission.consumer c.table n (.value fallback type definition [])) ys
          (c.table.unmarked.addOperation ⟨some n.id,
            .value (c.table.freshName (Text.baseName n.name fallback)) t.bare definition true,
            0, []⟩) } := by
    intro t ys
    rw [apply_eq, unmarked, unmarked_noteUses, place_table]
    change ({ c with
      bindings := c.bindings.insert n.id c.table.operations.length
      table := noteUses _ ys (SymbolTable.unmarked (c.table.addOperation _)) } : Compilation) = _
    rw [SymbolTable.unmarked_addOperation]
    rfl
  rw [hunmarked, hunmarked, htype, noteUses_eq, noteUses_eq, hxs]

/-- **Semantics decide nothing.** -/
theorem ofOperator_congr (op : String) (hleft : left.SameButSemantic left')
    (hright : right.SameButSemantic right') (htype : type'.bare = type.bare) :
    (∃ cause, Emission.ofOperator op left right type = .error cause ∧
      Emission.ofOperator op left' right' type' = .error cause) ∨
    ∃ definition,
      Emission.ofOperator op left right type = .ok (.value "op" type definition [left, right]) ∧
      Emission.ofOperator op left' right' type' =
        .ok (.value "op" type' definition [left', right']) := by
  have hneed : left'.type.needCast right'.type = left.type.needCast right.type := by
    rw [← ValueType.needCast_bare, hleft.type, hright.type, ValueType.needCast_bare]
  have hl : left'.type.castFrom type' = left.type.castFrom type := by
    rw [← ValueType.castFrom_bare, hleft.type, htype, ValueType.castFrom_bare]
  have hr : right'.type.castFrom type' = right.type.castFrom type := by
    rw [← ValueType.castFrom_bare, hright.type, htype, ValueType.castFrom_bare]
  unfold Emission.ofOperator
  rw [hneed, hl, hr, hleft.expr, hright.expr]
  split
  · cases left.type.castFrom type with
    | error cause => exact Or.inl ⟨cause, rfl, rfl⟩
    | ok l =>
      cases right.type.castFrom type with
      | error cause => exact Or.inl ⟨cause, rfl, rfl⟩
      | ok r => exact Or.inr ⟨_, rfl, rfl⟩
  · exact Or.inr ⟨_, rfl, rfl⟩

theorem operate_congr (c : Compilation) (n : Node) (op : String)
    (hleft : left.SameButSemantic left') (hright : right.SameButSemantic right')
    (htype : type'.bare = type.bare) :
    (c.operate n op left' right' type').2 = (c.operate n op left right type).2 ∧
      (c.operate n op left' right' type').1.unmarked =
        (c.operate n op left right type).1.unmarked := by
  rcases ofOperator_congr op hleft hright htype with
    ⟨cause, herror, herror'⟩ | ⟨definition, hok, hok'⟩
  · rw [operate_of_error herror, operate_of_error herror']
    exact ⟨rfl, rfl⟩
  · rw [operate_of_ok hok, operate_of_ok hok']
    refine ⟨rfl, unmarked_apply_value c n "op" htype definition ?_⟩
    simp only [List.filterMap_cons, hleft.source, hright.source]

/-! ## The casts of operators -/

/-- A node that is an operator is emitted as one between what it reads. -/
theorem emit_operator {g : Graph} {text : String} (hk : n.kind = .operator op text)
    (hleft : c.operandNo g n 0 = .ok left) (hright : c.operandNo g n 1 = .ok right) :
    c.emit g n = c.operate n op left right (c.registry.parse text) := by
  have hdeclare : c.declare n = .ok c := by
    rw [declare, hk]
  have hplan : c.plan g n = Emission.ofOperator op left right (c.registry.parse text) := by
    rw [plan, hk]
    simp only [hleft, hright]
  rw [emit_eq, hdeclare, operate, Builder.outcome_operatorCall]
  dsimp only
  rw [hplan]

/-- **The casts of operators are exact.**  An operator is refused exactly if its
    operands are mismatched and one of the three types is a resource or the type of
    the operator is unknown; then nothing is changed.  Otherwise mismatched operands
    have casts to the type of the operator in front of them where they are not of
    that type, which holds of one of them at least, and operands that match have
    none.  The semantics of the types decide nothing.  This is how nodes that are
    operators are emitted. -/
theorem operator_casts_exact (c : Compilation) (n : Node) (op : String) (left right : Operand)
    (type : ValueType) :
    ((∃ cause, (c.operate n op left right type).2 = .error cause) ↔
      left.type.Mismatched right.type ∧
        (left.type.isResource = true ∨ right.type.isResource = true ∨
          type.isResource = true ∨ type.isUnknown = true)) ∧
    (∀ cause, (c.operate n op left right type).2 = .error cause →
      (c.operate n op left right type).1 = c) ∧
    (∀ i, (c.operate n op left right type).2 = .ok i →
      ∃ o, i = some c.table.operations.length ∧
        (c.operate n op left right type).1.operation? n.id = some o ∧ o.type? = some type ∧
        (left.type.Mismatched right.type →
          o.definitionText = left.type.castPrefix type ++ left.expr.render ++ " " ++ op ++ " " ++
            (right.type.castPrefix type ++ right.expr.render) ∧
          (left.type.bare ≠ type.bare ∨ right.type.bare ≠ type.bare)) ∧
        (¬ left.type.Mismatched right.type →
          o.definitionText = left.expr.render ++ " " ++ op ++ " " ++ right.expr.render)) ∧
    (∀ left' right' type', left.SameButSemantic left' → right.SameButSemantic right' →
      type'.bare = type.bare →
        (c.operate n op left' right' type').2 = (c.operate n op left right type).2 ∧
        (c.operate n op left' right' type').1.unmarked =
          (c.operate n op left right type).1.unmarked) ∧
    ∀ g text, n.kind = .operator op text → c.registry.parse text = type →
      c.operandNo g n 0 = .ok left → c.operandNo g n 1 = .ok right →
        c.emit g n = c.operate n op left right type := by
  refine
    ⟨?_, fun cause => operate_unchanged, ?_, fun left' right' type' => operate_congr c n op, ?_⟩
  · rw [operate_isError_iff, ofOperator_isOk_iff]
    simp only [← Bool.not_eq_true]
    tauto
  · intro i h
    obtain ⟨l, r, hcasts, hoperate⟩ := operate_eq_ok h
    rw [hoperate] at h ⊢
    obtain ⟨o, ho, htype, htext⟩ := operation?_apply_value c n "op" type
      (.binary op (left.expr.castTo l) (right.expr.castTo r)) [left, right]
    obtain ⟨hcast, hplain⟩ := render_binary op hcasts
    refine ⟨o, (Except.ok.inj h).symm, ho, htype, ?_, fun hmatch => htext.trans (hplain hmatch)⟩
    intro hmis
    refine ⟨htext.trans (hcast hmis), ?_⟩
    -- operands of the type of the operator would not be mismatched
    by_contra! hsame
    exact hmis.1 (hsame.1.trans hsame.2.symm)
  · rintro g text hk rfl hleft hright
    exact emit_operator hk hleft hright

end Compilation

end Shading
