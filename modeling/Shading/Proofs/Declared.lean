/-
  The types of declarations.

  * `TypeRegistry.parse_standard`: over the standard types a text is one of them
    or the name of a struct, and a blank text is that of a struct without a
    name.
  * `NodeKind.Untyped`: operators and calls take their type as it is written, be
    it blank.  All other nodes give their values types with names
    (`Node.ownType_cases`).
  * `Settles`: what other nodes do if the type that they declare is blank
    (`settles_of_blank`).
  * `Expr.casts`, `CastsTo`: the casts in an expression, and the operators of a
    run that they come from (`casts_run`).
  * `declarations_typed_unless_blank`: so a declaration without a type, or a cast
    to none, comes from an operator or a call whose type is blank.
-/
import Shading.Proofs.Conversions
import Shading.Proofs.Scope
import Shading.Proofs.Texts
import Shading.Proofs.Typing

namespace Shading

open Text

/-! ## Types with names -/

/-- The name of a type is not blank, and is `unknown` only if one of the texts
    says so. -/
structure ValueType.Named (type : ValueType) (texts : List String) : Prop where
  known : type.isUnknown = false
  not_blank : squash type.name ≠ []
  unknown : type.name = "unknown" → ∃ text ∈ texts, trim text = "unknown"

namespace ValueType

theorem Named.mono {type : ValueType} {texts texts' : List String} (h : type.Named texts)
    (hsub : texts ⊆ texts') : type.Named texts' where
  known := h.known
  not_blank := h.not_blank
  unknown hname := by
    obtain ⟨text, htext, htrim⟩ := h.unknown hname
    exact ⟨text, hsub htext, htrim⟩

/-- A type has a name if its name starts with a word with which `unknown` does
    not. -/
theorem named_of_starts (type : ValueType) (word : String) (hknown : type.isUnknown = false)
    (hname : word.toList <+: type.name.toList) (hword : squash word ≠ [])
    (hne : ¬ word.toList <+: "unknown".toList) (texts : List String) : type.Named texts where
  known := hknown
  not_blank h := by
    obtain ⟨rest, hrest⟩ := hname
    rw [squash, ← hrest, List.filter_append] at h
    exact hword (List.append_eq_nil_iff.1 h).1
  unknown h := absurd (h ▸ hname) hne

theorem starts_scalar {s : Scalar} (h : s ≠ .unknown) :
    squash s.name ≠ [] ∧ ¬ s.name.toList <+: "unknown".toList := by
  cases s with
  | unknown => exact absurd rfl h
  | bool | int | uint | half | float | double => decide

theorem starts_resource (r : Resource) :
    squash r.name ≠ [] ∧ ¬ r.name.toList <+: "unknown".toList := by
  cases r <;> decide

theorem named_numeric (shape : Shape) (h : shape.element ≠ .unknown) (semantic : Option String)
    (texts : List String) : (numeric shape semantic).Named texts := by
  obtain ⟨hword, hne⟩ := starts_scalar h
  have hknown : (numeric shape semantic).isUnknown = false := by
    cases shape with
    | scalar s => cases s <;> simp_all [Shape.element, isUnknown]
    | vector | matrix => rfl
  have hname : shape.element.name.toList <+: shape.name.toList := by
    cases shape <;> simp [Shape.element, Shape.name, List.prefix_append]
  exact named_of_starts _ shape.element.name hknown hname hword hne texts

theorem named_resource (r : Resource) (texts : List String) : (resource r).Named texts := by
  obtain ⟨hword, hne⟩ := starts_resource r
  exact named_of_starts (.resource r) r.name rfl (List.prefix_refl _) hword hne texts

theorem named_floats (size : Nat) (texts : List String) : (floats size).Named texts := by
  have hne : Scalar.float ≠ .unknown := by decide
  rw [floats]
  split
  · exact named_numeric (.scalar .float) hne none texts
  · exact named_numeric (.vector .float size) hne none texts

end ValueType

namespace TypeRegistry

theorem builtin_cases {type : ValueType} (h : type ∈ builtin) :
    (∃ shape, type = .numeric shape none ∧ shape.element ≠ .unknown) ∨ ∃ r, type = .resource r := by
  have hconcrete : Scalar.unknown ∉ Scalar.concrete := by decide
  rw [builtin, List.mem_append, List.mem_flatMap, List.mem_map] at h
  rcases h with ⟨s, hs, hmem⟩ | ⟨r, -, rfl⟩
  · have hne : s ≠ .unknown := fun h => hconcrete (h ▸ hs)
    rw [numericTypes, List.mem_append, List.mem_cons, List.mem_map, List.mem_flatMap] at hmem
    rcases hmem with (rfl | ⟨size, -, rfl⟩) | ⟨rows, -, hmem⟩
    · exact Or.inl ⟨.scalar s, rfl, hne⟩
    · exact Or.inl ⟨.vector s size, rfl, hne⟩
    · obtain ⟨cols, -, rfl⟩ := List.mem_map.1 hmem
      exact Or.inl ⟨.matrix s rows cols, rfl, hne⟩
  · exact Or.inr ⟨r, rfl⟩

theorem builtin_named {type : ValueType} (h : type ∈ builtin) (texts : List String) :
    type.Named texts := by
  rcases builtin_cases h with ⟨shape, rfl, hne⟩ | ⟨r, rfl⟩
  · exact ValueType.named_numeric shape hne none texts
  · exact ValueType.named_resource r texts

/-- The standard registry knows standard types, by their names. -/
theorem standard_get?_eq_some {name : String} {type : ValueType}
    (h : standard.types.get? name = some type) : type ∈ builtin ∧ name = key type.name := by
  obtain ⟨before, after, hentries, -⟩ := List.lookup_eq_some_iff.1 h
  have hmem : (name, type) ∈ standard.types.entries :=
    hentries ▸ List.mem_append_right _ (List.mem_cons_self ..)
  obtain ⟨type', hbuiltin, heq⟩ := List.mem_map.1 hmem
  obtain ⟨hname, rfl⟩ := Prod.mk.inj heq
  exact ⟨hbuiltin, hname.symm⟩

/-- A text stands for a standard type or for a struct. -/
theorem parse_standard (text : String) :
    standard.parse text ∈ builtin ∨ standard.parse text = .struct (trim text) := by
  rw [parse]
  cases hget : standard.types.get? (key (trim text)) with
  | none => exact Or.inr rfl
  | some type => exact Or.inl (standard_get?_eq_some hget).1

/-- A blank text stands for a struct without a name. -/
theorem parse_standard_of_blank {text : String} (h : squash text = []) :
    standard.parse text = .struct "" := by
  have hnone : standard.types.get? (key "") = none := by
    cases hget : standard.types.get? (key "") with
    | none => rfl
    | some type =>
      obtain ⟨hbuiltin, hkey⟩ := standard_get?_eq_some hget
      have hempty : type.name.toList = [] := by simpa [key] using hkey.symm
      exact absurd (by simp [squash, hempty]) (builtin_named hbuiltin []).not_blank
  rw [parse, trim_eq_empty_iff.2 h, hnone]
  rfl

theorem named_parse {text : String} (h : squash text ≠ []) :
    (standard.parse text).Named [text] := by
  rcases parse_standard text with hmem | hstruct
  · exact builtin_named hmem _
  · rw [hstruct]
    exact ⟨rfl, by simpa [ValueType.name] using h, fun hname => ⟨text, by simp, hname⟩⟩

theorem named_parse? {text : String} {type : ValueType} (h : standard.parse? text = some type) :
    type.Named [text] := by
  obtain ⟨content, hcontent, rfl⟩ := Option.map_eq_some_iff.1 h
  obtain ⟨rfl, hne⟩ := content_eq_some hcontent
  have hnamed : (standard.parse (trim text)).Named [trim text] := named_parse (by simpa using hne)
  exact ⟨hnamed.known, hnamed.not_blank, fun hname => ⟨text, by simp, by
    simpa using hnamed.unknown hname⟩⟩

theorem parse?_of_blank (r : TypeRegistry) {text : String} (h : squash text = []) :
    r.parse? text = none := by
  rw [parse?, content_eq_none_iff.2 h]
  rfl

end TypeRegistry

/-! ## Types of nodes -/

/-- The type that a node takes as it is written. -/
def NodeKind.unchecked? : NodeKind → Option String
  | .operator _ type | .call _ type => some type
  | _ => none

/-- A node takes a blank for its type. -/
def NodeKind.Untyped (kind : NodeKind) : Prop :=
  ∃ text, kind.unchecked? = some text ∧ squash text = []

/-- The texts that may say what type a node has: its own, and that of its first
    output pin. -/
def Node.typeTexts (n : Node) : List String :=
  n.kind.type?.toList ++ (n.outputs.head?.bind (·.type?)).toList

theorem Node.typed_of_unchecked? {n : Node} {text : String} (h : n.kind.unchecked? = some text)
    (r : TypeRegistry) (e : EntryPoint) :
    n.ownType? r e = some (r.parse text) ∧ text ∈ n.typeTexts := by
  cases hk : n.kind <;> simp [hk, NodeKind.unchecked?] at h <;> subst h <;>
    simp [Node.ownType?, Node.typeTexts, NodeKind.type?, hk]

/-- **The type of a value has a name**, unless its node takes a blank for it. -/
theorem Node.ownType_cases {n : Node} {e : EntryPoint} {type : ValueType}
    (h : n.ownType? .standard e = some type) (hinput : n.kind ≠ .input) :
    (n.kind.Untyped ∧ type = .struct "") ∨ (¬ n.kind.Untyped ∧ type.Named n.typeTexts) := by
  cases hu : n.kind.unchecked? with
  | some text =>
    obtain ⟨htype, htext⟩ := n.typed_of_unchecked? hu .standard e
    obtain rfl := Option.some.inj (htype.symm.trans h)
    by_cases hblank : squash text = []
    · exact Or.inl ⟨⟨text, hu, hblank⟩, TypeRegistry.parse_standard_of_blank hblank⟩
    · refine Or.inr ⟨?_, (TypeRegistry.named_parse hblank).mono (by simpa using htext)⟩
      rintro ⟨text', hu', hblank'⟩
      obtain rfl := Option.some.inj (hu.symm.trans hu')
      exact hblank hblank'
  | none =>
    refine Or.inr ⟨by simp [NodeKind.Untyped, hu], ?_⟩
    cases hk : n.kind with
    | operator | call => simp [hk, NodeKind.unchecked?] at hu
    | texture | convert =>
      simp only [ownType?, hk, Option.some.injEq] at h
      subst h
      exact ValueType.named_floats 4 _
    | mask components text | pack text =>
      simp only [ownType?, hk] at h
      obtain ⟨size, -, rfl⟩ := Option.map_eq_some_iff.1 h
      exact ValueType.named_floats size _
    | declaredCall function text source =>
      simp only [ownType?, hk] at h
      obtain ⟨text, rfl, htype⟩ := Option.bind_eq_some_iff.1 h
      exact (TypeRegistry.named_parse? htype).mono (by simp [typeTexts, hk, NodeKind.type?])
    | split text =>
      simp only [ownType?, hk, Option.filter_eq_some_iff] at h
      exact (TypeRegistry.named_parse? h.1).mono (by simp [typeTexts, hk, NodeKind.type?])
    | constant text =>
      simp only [ownType?, hk, Compilation.constantType?, Option.or_eq_some_iff] at h
      rcases h with htype | ⟨-, hpin⟩
      · exact (TypeRegistry.named_parse? htype).mono (by simp [typeTexts, hk, NodeKind.type?])
      · obtain ⟨text', htext, htype⟩ := Option.bind_eq_some_iff.1 hpin
        exact (TypeRegistry.named_parse? htype).mono (by simp [typeTexts, htext])
    | input => exact absurd hk hinput
    | voidCall | output => simp [ownType?, hk] at h

/-! ## Blank types -/

/-- The type of what is emitted. -/
def Emission.type? : Emission → Option ValueType
  | .sample _ => some (.floats 4)
  | .value _ type .. | .synonym _ type => some type
  | .nothing | .stageInput _ | .effect .. => none

namespace Compilation

variable {c d d' : Compilation} {g : Graph} {n : Node} {em : Emission} {xs : List Operand}

/-- A node makes no value of a type without a name: it is refused, or has no
    value, or has the type of its output pin or of what it reads. -/
def Settles (c : Compilation) (g : Graph) (n : Node) : Prop :=
  (∃ text, c.plan g n = .error (.unsupportedType n.id text)) ∨
    ∀ em, c.plan g n = .ok em → em.type? = none ∨
      (∃ p type, n.outputs.head? = some p ∧ c.typeOf? p.type? = some type ∧
        em.type? = some type) ∨
      ∃ x, c.operandNo g n 0 = .ok x ∧ em.type? = some x.type

theorem arity_of_blank (hc : c.registry = .standard) {text : String} (h : squash text = []) :
    c.arity n text = .error (.unsupportedType n.id text) := by
  rw [arity, hc, TypeRegistry.parse_standard_of_blank h]
  rfl

/-- **Blank types.**  All nodes but operators and calls settle what a blank type
    means. -/
theorem settles_of_blank (hc : c.registry = .standard) {text : String}
    (ht : n.kind.type? = some text) (hblank : squash text = []) (hu : n.kind.unchecked? = none) :
    c.Settles g n := by
  have hnone := c.registry.parse?_of_blank hblank
  cases hk : n.kind with
  | operator | call => simp [hk, NodeKind.unchecked?] at hu
  | texture | voidCall | input | output => simp [hk, NodeKind.type?] at ht
  | convert last =>
    rw [hk] at ht
    cases ht
    exact absurd hblank (by decide)
  | mask components type =>
    rw [hk] at ht
    cases ht
    exact Or.inl ⟨text, by simp only [plan, hk, arity_of_blank hc hblank]⟩
  | pack type =>
    rw [hk] at ht
    cases ht
    exact Or.inl ⟨text, by simp only [plan, hk, arity_of_blank hc hblank]⟩
  | declaredCall function type source =>
    rw [hk] at ht
    cases ht
    refine Or.inr fun em hem => Or.inl ?_
    simp only [plan, hk, map_eq_ok_iff] at hem
    obtain ⟨args, -, rfl⟩ := hem
    simp [typeOf?, hnone, Emission.ofCall, Emission.type?]
  | split type =>
    rw [hk] at ht
    cases ht
    refine Or.inr fun em hem => Or.inr (Or.inr ?_)
    simp only [plan, hk, map_eq_ok_iff] at hem
    obtain ⟨x, hx, rfl⟩ := hem
    exact ⟨x, hx, by simp [hnone, Emission.type?, ValueType.isUnknown, ValueType.unknown,
      ValueType.scalar]⟩
  | constant type =>
    rw [hk] at ht
    cases ht
    have hconstant : constantType? c.registry n text =
        (n.outputs.head?.bind (·.type?)).bind c.registry.parse? := by
      rw [constantType?, hnone, Option.none_or]
    have hplan : c.plan g n = c.planConstant n text := by simp only [plan, hk]
    cases htype : (n.outputs.head?.bind (·.type?)).bind c.registry.parse? with
    | none =>
      refine Or.inl ⟨"", ?_⟩
      rw [hplan, planConstant]
      simp only [hnone, Option.none_or, typeOf?, htype]
    | some type =>
      refine Or.inr fun em hem => Or.inr (Or.inl ?_)
      rw [hplan] at hem
      obtain ⟨type', htype', rfl⟩ := planConstant_eq_ok_iff.1 hem
      cases (hconstant.trans htype).symm.trans htype'
      obtain ⟨text', htext, hparse⟩ := Option.bind_eq_some_iff.1 htype
      obtain ⟨p, hp, hptype⟩ := Option.bind_eq_some_iff.1 htext
      exact ⟨p, type, hp, by rw [hptype, typeOf?, Option.bind_some, hparse], rfl⟩

end Compilation

/-! ## Casts -/

namespace Expr

mutual

/-- The types to which an expression casts. -/
def casts : Expr → List String
  | literal _ | name _ => []
  | cast type e => type :: e.casts
  | member e _ | group e | sample _ _ e => e.casts
  | binary _ left right => left.casts ++ right.casts
  | call _ args => castsAll args

/-- The types to which expressions cast. -/
def castsAll : List Expr → List String
  | [] => []
  | e :: rest => e.casts ++ castsAll rest

end

theorem mem_castsAll {type : String} {es : List Expr} :
    type ∈ castsAll es ↔ ∃ e ∈ es, type ∈ e.casts := by
  induction es with
  | nil => simp [castsAll]
  | cons e rest ih => simp [castsAll, ih]

@[simp]
theorem casts_operand (e : Expr) : e.operand.casts = e.casts := by
  rw [operand]
  split
  · rfl
  · rw [casts]

@[simp]
theorem casts_castTo (type? : Option String) (e : Expr) :
    (e.castTo type?).casts = type?.toList ++ e.casts := by
  cases type? with
  | none => rfl
  | some type => rw [castTo, casts]; rfl

end Expr

/-- The types to which a body casts. -/
def Body.casts (b : Body) : List String :=
  b.statements.flatMap fun st => (st.value?.map Expr.casts).getD []

theorem Body.mem_casts {b : Body} {type : String} :
    type ∈ b.casts ↔ ∃ st ∈ b.statements, ∃ value, st.value? = some value ∧ type ∈ value.casts := by
  simp only [casts, List.mem_flatMap]
  refine exists_congr fun st => and_congr_right fun _ => ?_
  cases st.value? <;> simp

namespace Operation

/-- The types to which an operation casts. -/
def casts (o : Operation) : List String :=
  match o.form with
  | .value _ _ e _ | .effect e | .synonym e _ => e.casts

variable {o : Operation} {type : String}

theorem casts_of_reference (h : type ∈ o.reference.casts) : type ∈ o.casts := by
  cases hf : o.form <;> simp [reference, hf, Expr.casts] at h
  simpa [casts, hf] using h

theorem casts_of_expansion (h : type ∈ o.expansion.casts) : type ∈ o.casts := by
  cases hf : o.form with
  | value name type' definition inlinable =>
    simp only [expansion, hf] at h
    split at h
    · simpa [casts, hf] using h
    · exact casts_of_reference h
  | effect | synonym =>
    simp only [expansion, hf] at h
    exact casts_of_reference h

theorem Written.casts {st : Statement} (h : o.Written st) {value : Expr}
    (hvalue : st.value? = some value) : value.casts = o.casts := by
  cases h with
  | define hf | perform hf =>
    cases hvalue
    rw [Operation.casts, hf]

end Operation

namespace Compilation

variable {c c' d d' : Compilation} {g : Graph} {n : Node} {em : Emission} {xs : List Operand}

theorem casts_valueOf {producer : Node} {pin : Option Pin} {x : Operand}
    (hx : c.valueOf producer pin = .ok x) {type : String} (ht : type ∈ x.expr.casts) :
    ∃ o ∈ c.table.operations, type ∈ o.casts := by
  obtain ⟨o, type', ho, -, rfl⟩ := valueOf_eq_ok_iff.1 hx
  obtain ⟨i, -, hi⟩ := Option.bind_eq_some_iff.1 ho
  refine ⟨o, List.mem_of_getElem? hi, ?_⟩
  rw [readAt_eq] at ht
  split at ht
  · exact Operation.casts_of_reference ht
  · simp only [wholeValue] at ht
    split at ht
    · exact Operation.casts_of_expansion ht
    · exact Operation.casts_of_reference ht

/-- What is read at a pin has the casts of operations. -/
theorem casts_operandNo {i : Nat} {x : Operand} (hx : c.operandNo g n i = .ok x) {type : String}
    (ht : type ∈ x.expr.casts) : ∃ o ∈ c.table.operations, type ∈ o.casts := by
  rcases operandNo_eq_ok_iff.1 hx with ⟨-, rfl⟩ | ⟨l, producer, -, -, hvalue⟩
  · simp only [unlinked] at ht
    split at ht <;> cases ht
  · exact casts_valueOf hvalue ht

theorem casts_rootValue {root : Node} {i : Nat} {x : Operand}
    (hx : c.rootValue g root i = .ok x) {type : String} (ht : type ∈ x.expr.casts) :
    ∃ o ∈ c.table.operations, type ∈ o.casts := by
  rw [rootValue] at hx
  split at hx
  · exact casts_valueOf hx ht
  · exact casts_operandNo hx ht

/-- What is made for a node has the casts of what the node reads, and those of
    the node if it is an operator. -/
theorem Made.casts (h : c.Made n xs em) {t : SymbolTable} {o : Operation}
    (ho : em.operation? t n = some o) {type : String} (ht : type ∈ o.casts) :
    (∃ x ∈ xs, type ∈ x.expr.casts) ∨ ∃ op text x y, n.kind = .operator op text ∧ xs = [x, y] ∧
      x.type.needCast y.type = true ∧ type = (c.registry.parse text).name := by
  have hargs : ∀ xs : List Operand, type ∈ Expr.castsAll (xs.map (·.expr)) →
      ∃ x ∈ xs, type ∈ x.expr.casts := by
    intro xs h
    obtain ⟨_, he, hmem⟩ := Expr.mem_castsAll.1 h
    obtain ⟨x, hx, rfl⟩ := List.mem_map.1 he
    exact ⟨x, hx, hmem⟩
  cases h with
  | operator hk hcasts =>
    rename_i op text x y left right
    cases ho
    simp only [Operation.casts, Expr.casts, Expr.casts_castTo, List.mem_append] at ht
    have hown : type ∈ left.toList ++ right.toList → _ := hcasts.mem_iff.1
    rw [List.mem_append] at hown
    rcases ht with (hl | hx) | (hr | hy)
    · exact Or.inr ⟨op, text, x, y, hk, rfl, hown (Or.inl hl)⟩
    · exact Or.inl ⟨x, by simp, hx⟩
    · exact Or.inr ⟨op, text, x, y, hk, rfl, hown (Or.inr hr)⟩
    · exact Or.inl ⟨y, by simp, hy⟩
  | sample | convert | mask | split =>
    cases ho
    refine Or.inl ⟨_, List.mem_singleton_self _, ?_⟩
    simpa [Operation.casts, Expr.casts, Expr.castsAll] using ht
  | call | voidCall | pack =>
    cases ho
    exact Or.inl (hargs _ (by simpa [Operation.casts, Expr.casts] using ht))
  | declaredCall hk =>
    rename_i function text source
    refine Or.inl (hargs _ ?_)
    cases htype : c.typeOf? text <;> rw [htype] at ho <;> cases ho <;>
      simpa [Operation.casts, Expr.casts] using ht
  | constant => cases ho; cases ht
  | input | output => cases ho

/-- In the run over `ns` from `c` there is an operator whose type is written as
    `text`, and whose operands need casts. -/
def CastsTo (g : Graph) (c : Compilation) (ns : List Node) (text : String) : Prop :=
  ∃ before n after op d x y, ns = before ++ n :: after ∧ n.kind = .operator op text ∧
    emitAll g c before = (d, none) ∧ d.operandNo g n 0 = .ok x ∧ d.operandNo g n 1 = .ok y ∧
    x.type.needCast y.type = true

/-- **Where casts come from:** all casts in a run are to the types of operators
    whose operands need them. -/
theorem casts_run {ns : List Node} (hr : ∀ n ∈ ns, c.table.Reserves n)
    (h : emitAll g c ns = (c', none))
    (hc : ∀ o ∈ c.table.operations.map Operation.bare, o.casts = []) :
    ∀ o ∈ c'.table.operations.map Operation.bare, ∀ type ∈ o.casts,
      ∃ text, type = (c.registry.parse text).name ∧ CastsTo g c ns text := by
  have hall : c.Follows c' ∧ ∀ o ∈ c'.table.operations.map Operation.bare, ∀ type ∈ o.casts,
      ∃ text, type = (c.registry.parse text).name ∧ CastsTo g c ns text := by
    refine run_induct_reached (motive := fun _ d => c.Follows d ∧
      ∀ o ∈ d.table.operations.map Operation.bare, ∀ type ∈ o.casts,
        ∃ text, type = (c.registry.parse text).name ∧ CastsTo g c ns text) hr h
      ⟨.refl c, fun o ho type ht => by rw [hc o ho] at ht; cases ht⟩ ?_
    rintro done n rest d em d' hns hrun ⟨hfollows, hd⟩ hplan hem
    obtain ⟨xs, hxs, hmade⟩ := plan_eq_ok_iff.1 hplan
    refine ⟨hfollows.step hem, fun o ho type ht => ?_⟩
    rw [hem.operations, List.mem_append, Option.mem_toList] at ho
    rcases ho with ho | ho
    · exact hd o ho type ht
    · rcases hmade.casts ho ht with ⟨x, hx, hxt⟩ | ⟨op, text, x, y, hk, rfl, hneed, rfl⟩
      · obtain ⟨i, hi⟩ := exists_operandNo_of_mem hxs hx
        obtain ⟨o', ho', ht'⟩ := casts_operandNo hi hxt
        exact hd o'.bare (List.mem_map.2 ⟨o', ho', rfl⟩) type ht'
      · have hslots : n.slots d.registry = [0, 1] := by simp [Node.slots, hk]
        rw [hslots] at hxs
        obtain ⟨x', y', hx, hy, hxy⟩ := operandsNo_pair (operandsNo_eq_ok_iff.2 hxs)
        cases hxy
        exact ⟨text, by rw [hfollows.registry],
          done, n, rest, op, d, x, y, hns, hk, hrun, hx, hy, hneed⟩
  exact hall.2

/-! ## Operations and their nodes -/

/-- The value that is made for a node has the type of the node. -/
theorem Made.ownType?_eq (h : c.Made n xs em) {t : SymbolTable} {o : Operation}
    (ho : em.operation? t n = some o) {name : String} {type : ValueType} {definition : Expr}
    {inlinable : Bool} (hform : o.form = .value name type definition inlinable) (e : EntryPoint) :
    n.ownType? c.registry e = some type ∧ n.kind ≠ .input := by
  cases h with
  | sample hk | operator hk | call hk | convert hk =>
    cases ho
    cases hform
    simp [Node.ownType?, hk]
  | mask hk ha | pack hk ha =>
    cases ho
    cases hform
    simp [Node.ownType?, hk, (arity_eq_ok_iff.1 ha).1]
  | constant hk ht =>
    cases ho
    cases hform
    simp [Node.ownType?, hk, ht]
  | declaredCall hk =>
    rename_i function text source
    cases htype : c.typeOf? text with
    | none => rw [htype] at ho; cases ho; cases hform
    | some type' =>
      rw [htype] at ho
      cases ho
      cases hform
      simp only [typeOf?] at htype
      simp [Node.ownType?, hk, htype]
  | voidCall | split => cases ho; cases hform
  | input | output => cases ho

/-- Operators and calls have values of the types that they take. -/
theorem Made.exists_value (h : c.Made n xs em) {text : String}
    (hu : n.kind.unchecked? = some text) {t : SymbolTable} :
    ∃ o, em.operation? t n = some o ∧
      ∃ name definition, o.form = .value name (c.registry.parse text) definition true := by
  cases h with
  | operator hk | call hk =>
    rw [hk] at hu
    cases hu
    exact ⟨_, rfl, _, _, rfl⟩
  | sample hk | voidCall hk | declaredCall hk | convert hk | mask hk | pack hk | split hk
  | constant hk | input hk | output hk =>
    rw [hk] at hu
    cases hu

/-- An operation is made for one of the nodes `ns`, with the types of `c`. -/
def MadeFor (c : Compilation) (ns : List Node) (o : Operation) : Prop :=
  ∃ n ∈ ns, ∃ (d : Compilation) (xs : List Operand) (em : Emission),
    d.registry = c.registry ∧ d.Made n xs em ∧ em.operation? d.table n = some o

/-- All operations of a run are made for nodes of it. -/
theorem madeFor_run {ns : List Node} (hr : ∀ n ∈ ns, c.table.Reserves n)
    (h : emitAll g c ns = (c', none)) :
    ∀ o ∈ c'.table.operations.map Operation.bare,
      o ∈ c.table.operations.map Operation.bare ∨ c.MadeFor ns o := by
  have hall : c.Follows c' ∧ ∀ o ∈ c'.table.operations.map Operation.bare,
      o ∈ c.table.operations.map Operation.bare ∨ c.MadeFor ns o := by
    refine run_induct (motive := fun _ d => c.Follows d ∧
      ∀ o ∈ d.table.operations.map Operation.bare,
        o ∈ c.table.operations.map Operation.bare ∨ c.MadeFor ns o) hr h
      ⟨.refl c, fun _ => Or.inl⟩ ?_
    rintro done n rest d em d' hns ⟨hfollows, hd⟩ hplan hem
    obtain ⟨xs, -, hmade⟩ := plan_eq_ok_iff.1 hplan
    refine ⟨hfollows.step hem, fun o ho => ?_⟩
    rw [hem.operations, List.mem_append, Option.mem_toList] at ho
    rcases ho with ho | ho
    · exact hd o ho
    · exact Or.inr ⟨n, by simp [hns], d, xs, em, hfollows.registry, hmade, ho⟩
  exact hall.2

end Compilation

namespace Compiler

open Compilation

variable {ρ : Type} {k : Compiler ρ} {g : Graph} {e : EntryPoint} {r : Node} {ns : List Node}
  {d : Compilation} {xs : List Operand} {b : Body}

namespace Passage

variable (h : k.Passage g e r ns d xs) (hb : b.statements = d.statements ++ d.closing xs)
include h

/-- What is made for a node that is emitted stays in the table. -/
theorem exists_made {before after : List Node} {n : Node} (hns : ns = before ++ n :: after) :
    ∃ d₀ ys em, emitAll g (k.stage g e) before = (d₀, none) ∧
      d₀.registry = k.compilation.registry ∧
      List.Forall₂ (fun i x => d₀.operandNo g n i = .ok x) (n.slots d₀.registry) ys ∧
      d₀.Made n ys em ∧ ∀ o, em.operation? d₀.table n = some o →
        o ∈ d.table.operations.map Operation.bare := by
  have hreserves := h.reserves
  have hrun := h.run
  rw [hns] at hreserves hrun
  obtain ⟨d₀, em, d₁, hbefore, hplan, hem, hstart, hend⟩ := run_through hreserves hrun
  obtain ⟨ys, hys, hmade⟩ := plan_eq_ok_iff.1 hplan
  refine ⟨d₀, ys, em, hbefore, hstart.registry, hys, hmade, fun o ho => hend.operations.subset ?_⟩
  rw [hem.operations, List.mem_append, Option.mem_toList]
  exact Or.inr ho

include hb

/-- A value of a struct has a statement. -/
theorem define_mem {o : Operation} (ho : o ∈ d.table.operations.map Operation.bare)
    {name : String} {type : ValueType} {definition : Expr} {inlinable : Bool}
    (hform : o.form = .value name type definition inlinable) (hs : type.isStruct = true) :
    .define type name definition ∈ b.statements := by
  rw [hb, h.statements]
  refine List.mem_append_left _ (List.mem_filterMap.2 ⟨o, ho, ?_⟩)
  simp [Compilation.written?, isSubstituted, Operation.canInline, Operation.written?, hform, hs]

/-- A declaration is that of an operation. -/
theorem operation_of_define {type : ValueType} {name : String} {value : Expr}
    (hmem : .define type name value ∈ b.statements) :
    ∃ o ∈ d.table.operations.map Operation.bare, ∃ inlinable,
      o.form = .value name type value inlinable := by
  rw [hb, h.statements, List.mem_append] at hmem
  rcases hmem with hmem | hmem
  · obtain ⟨o, ho, hwritten⟩ := List.mem_filterMap.1 hmem
    cases (Compilation.written?_eq_some_iff.1 hwritten).2 with
    | define hf => exact ⟨o, ho, _, hf⟩
  · cases isClosing_of_mem_closing hmem

/-- The casts of a body are casts of operations. -/
theorem operation_of_cast {type : String} (ht : type ∈ b.casts) :
    ∃ o ∈ d.table.operations.map Operation.bare, type ∈ o.casts := by
  obtain ⟨st, hst, value, hvalue, ht⟩ := Body.mem_casts.1 ht
  have hbare : (∃ o ∈ d.table.operations, type ∈ o.casts) →
      ∃ o ∈ d.table.operations.map Operation.bare, type ∈ o.casts := fun ⟨o, ho, hcast⟩ =>
    ⟨o.bare, List.mem_map.2 ⟨o, ho, rfl⟩, hcast⟩
  have hroot : ∀ x ∈ xs, type ∈ x.expr.casts →
      ∃ o ∈ d.table.operations.map Operation.bare, type ∈ o.casts := by
    intro x hx ht
    obtain ⟨i, hi⟩ := List.getElem?_of_mem hx
    exact hbare (casts_rootValue (h.values i x hi) ht)
  rw [hb, h.statements, List.mem_append] at hst
  rcases hst with hst | hst
  · obtain ⟨o, ho, hwritten⟩ := List.mem_filterMap.1 hst
    have hcasts := (Compilation.written?_eq_some_iff.1 hwritten).2.casts hvalue
    exact ⟨o, ho, hcasts ▸ ht⟩
  · cases mem_closing_cases hst with
    | introduce => cases hvalue
    | assign _ _ hx | value hx =>
      cases hvalue
      exact hroot _ hx ht
    | struct =>
      cases hvalue
      cases ht

/-- The casts of an operator that makes a struct stand in its statement. -/
theorem cast_mem {text : String} (hcasts : CastsTo g (k.stage g e) ns text)
    (hs : (k.compilation.registry.parse text).isStruct = true) :
    (k.compilation.registry.parse text).name ∈ b.casts := by
  obtain ⟨before, n, after, op, d₀, x, y, hns, hk, hrun, hx, hy, hneed⟩ := hcasts
  obtain ⟨d₁, ys, em, hrun', hregistry, hys, hmade, hstays⟩ := h.exists_made hns
  cases hrun.symm.trans hrun'
  obtain ⟨x', y', left, right, rfl, hcasts, rfl⟩ := hmade.operates hk
  have hslots : n.slots d₀.registry = [0, 1] := by simp [Node.slots, hk]
  rw [hslots] at hys
  obtain ⟨x'', y'', hx', hy', hxy⟩ := operandsNo_pair (operandsNo_eq_ok_iff.2 hys)
  cases hxy
  cases hx.symm.trans hx'
  cases hy.symm.trans hy'
  rw [hregistry] at hcasts hstays
  have hmem := h.define_mem hb (hstays _ rfl) rfl hs
  refine Body.mem_casts.2 ⟨_, hmem, _, rfl, ?_⟩
  have hcast := hcasts.mem_iff.2 ⟨hneed, rfl⟩
  simp only [Expr.casts, Expr.casts_castTo, List.mem_append] at hcast ⊢
  exact hcast.elim (fun hl => Or.inl (Or.inl hl)) fun hr => Or.inr (Or.inl hr)

end Passage

end Compiler

/-! ## All declarations -/

/-- **Declarations and their types.**  Over the standard types every declaration
    has the type of its node.  The type has a name, and this is `unknown` only
    if the author wrote that, unless the node is an operator or a call whose
    type is blank: then the declaration has no type at all.  A cast to no type
    comes from an operator whose type is blank and whose operands need casts.
    All other nodes settle what a blank type means. -/
theorem declarations_typed_unless_blank {ρ : Type} (k : Compiler ρ)
    (hregistry : k.compilation.registry = .standard) (hbefore : k.before = [])
    (hafter : k.after = []) (g : Graph) (root : String) (e : EntryPoint) {s : Shader}
    (h : (k.generate g root e).result = .ok s) :
    ∃ c b r ns, k.assemble g root e = .ok (c, b) ∧ s = Compiler.shader c b ∧
      g.node? root = some r ∧ g.order = .ok ns ∧
      (∀ type name value, .define type name value ∈ b.statements →
        ∃ n ∈ Graph.emitted r ns, n.ownType? .standard e = some type ∧
          ((n.kind.Untyped ∧ type = .struct "") ∨
            (¬ n.kind.Untyped ∧ type.Named n.typeTexts))) ∧
      ((∃ name value, .define (.struct "") name value ∈ b.statements) ↔
        ∃ n ∈ Graph.emitted r ns, n.kind.Untyped) ∧
      ((∃ type ∈ b.casts, squash type = []) ↔
        ∃ text, squash text = [] ∧
          Compilation.CastsTo g (k.stage g e) (Graph.emitted r ns) text) ∧
      ∀ (d : Compilation) (n : Node) (text : String), d.registry = .standard →
        n.kind.type? = some text → squash text = [] → n.kind.unchecked? = none →
        d.Settles g n := by
  obtain ⟨c, b, hok, rfl⟩ := (k.generate_eq_ok_iff g root e hafter).1 h
  obtain ⟨r, ns, d, xs, hroot, horder, hpass, hb, rfl⟩ := Compiler.exists_passage hbefore hok
  have hstage : (k.stage g e).registry = .standard := hregistry
  have hoperation := Compiler.stage_operations_of_nil hbefore hpass.reserved
  have hdefine : ∀ type name value, .define type name value ∈ b.statements →
      ∃ n ∈ Graph.emitted r ns, n.ownType? .standard e = some type ∧
        ((n.kind.Untyped ∧ type = .struct "") ∨
          (¬ n.kind.Untyped ∧ type.Named n.typeTexts)) := by
    intro type name value hmem
    obtain ⟨o, ho, inlinable, hform⟩ := hpass.operation_of_define hb hmem
    rcases Compilation.madeFor_run hpass.reserves hpass.run o ho with
      hstart | ⟨n, hn, d₀, ys, em, hd₀, hmade, ho⟩
    · rw [hoperation] at hstart
      rw [List.mem_singleton.1 hstart] at hform
      cases hform
    · obtain ⟨htype, hinput⟩ := hmade.ownType?_eq ho hform e
      rw [hd₀, hstage] at htype
      exact ⟨n, hn, htype, Node.ownType_cases htype hinput⟩
  refine ⟨d.closed, b, r, ns, hok, rfl, hroot, horder, hdefine, ⟨?_, ?_⟩, ⟨?_, ?_⟩, ?_⟩
  · rintro ⟨name, value, hmem⟩
    obtain ⟨n, hn, -, ⟨hu, -⟩ | ⟨-, hnamed⟩⟩ := hdefine _ name value hmem
    · exact ⟨n, hn, hu⟩
    · exact absurd rfl hnamed.not_blank
  · rintro ⟨n, hn, text, hu, hblank⟩
    obtain ⟨before, after, hns⟩ := List.append_of_mem hn
    obtain ⟨d₀, ys, em, -, hd₀, -, hmade, hstays⟩ := hpass.exists_made hns
    obtain ⟨o, ho, name, definition, hform⟩ := hmade.exists_value hu
    rw [hd₀, hregistry, TypeRegistry.parse_standard_of_blank hblank] at hform
    exact ⟨name, definition, hpass.define_mem hb (hstays o ho) hform rfl⟩
  · rintro ⟨type, ht, hblank⟩
    obtain ⟨o, ho, ht⟩ := hpass.operation_of_cast hb ht
    obtain ⟨text, rfl, hcasts⟩ := Compilation.casts_run hpass.reserves hpass.run
      (by simp [hoperation, Compiler.stageOperation, Operation.casts, Operation.bare, Expr.casts])
      o ho type ht
    refine ⟨text, ?_, hcasts⟩
    by_contra hne
    rw [hstage] at hblank
    exact (TypeRegistry.named_parse hne).not_blank hblank
  · rintro ⟨text, hblank, hcasts⟩
    have hstruct := TypeRegistry.parse_standard_of_blank hblank
    rw [← hregistry] at hstruct
    exact ⟨_, hpass.cast_mem hb hcasts (by rw [hstruct]; rfl), by rw [hstruct]; rfl⟩
  · intro d₀ n text hd₀ htype hblank hu
    exact Compilation.settles_of_blank hd₀ htype hblank hu

namespace Sample

/-- A compiler with the standard types. -/
def standardCompiler : Compiler Unit :=
  { compiler false [] with compilation := .fresh .standard }

/-- The sum of two fields of the stage input, without a type. -/
def untypedSum : Graph where
  nodes :=
    [⟨"in", "", .input, [⟨"a", "", .output, none, none⟩, ⟨"b", "", .output, none, none⟩]⟩,
      ⟨"sum", "Sum", .operator "+" "",
        [⟨"x", "", .input, none, none⟩, ⟨"y", "", .input, none, none⟩,
          ⟨"xy", "", .output, none, none⟩]⟩,
      ⟨"out", "", .output, [⟨"shade", "", .input, none, none⟩]⟩]
  links :=
    [⟨"1", ⟨"in", "a"⟩, ⟨"sum", "x"⟩⟩, ⟨"2", ⟨"in", "b"⟩, ⟨"sum", "y"⟩⟩,
      ⟨"3", ⟨"sum", "xy"⟩, ⟨"out", "shade"⟩⟩]

/-- An entry point that takes a field of three and one of two components. -/
def mixed : EntryPoint :=
  { pixel with input := ⟨"Varying", [⟨"a", .floats 3⟩, ⟨"b", .floats 2⟩]⟩ }

theorem untypedSum_body : ∃ c b, standardCompiler.assemble untypedSum "out" mixed = .ok (c, b) ∧
    b.statements.map Statement.render =
      [" sum = ()varying.a + ()varying.b;", "Pixel pixel;", "pixel.shade = sum.xy;",
        "return pixel;"] := by
  have h : (standardCompiler.assemble untypedSum "out" mixed).map
      (·.2.statements.map Statement.render) =
      .ok [" sum = ()varying.a + ()varying.b;", "Pixel pixel;", "pixel.shade = sum.xy;",
        "return pixel;"] := by
    decide +kernel
  cases hok : standardCompiler.assemble untypedSum "out" mixed with
  | error f => rw [hok] at h; cases h
  | ok cb => rw [hok] at h; exact ⟨cb.1, cb.2, rfl, Except.ok.inj h⟩

end Sample

/-- A sum without a type. -/
theorem declarations_typed_unless_blank_untypedSum :
    ∃ c b, Sample.standardCompiler.assemble Sample.untypedSum "out" Sample.mixed = .ok (c, b) ∧
      (∃ name value, .define (.struct "") name value ∈ b.statements) ∧
      ∀ type name value, .define type name value ∈ b.statements → type = .struct "" ∨
        type.isUnknown = false ∧ squash type.name ≠ [] := by
  obtain ⟨c, b, hok, -⟩ := Sample.untypedSum_body
  have hs := (Sample.standardCompiler.generate_eq_ok_iff _ _ _ rfl).2 ⟨c, b, hok, rfl⟩
  obtain ⟨c', b', r, ns, hok', -, -, horder, hdefine, hblank, -⟩ :=
    declarations_typed_unless_blank Sample.standardCompiler rfl rfl rfl Sample.untypedSum "out"
      Sample.mixed hs
  have hns : Sample.untypedSum.order = .ok Sample.untypedSum.nodes := by decide +kernel
  rw [hns] at horder
  cases horder
  refine ⟨c', b', hok', hblank.2 ⟨⟨"sum", "Sum", .operator "+" "", _⟩,
    List.mem_append_left _ (List.mem_cons_of_mem _ (List.mem_cons_self ..)), "", rfl, rfl⟩, ?_⟩
  intro type name value hmem
  obtain ⟨n, -, -, ⟨-, htype⟩ | ⟨-, hnamed⟩⟩ := hdefine type name value hmem
  · exact Or.inl htype
  · exact Or.inr ⟨hnamed.known, hnamed.not_blank⟩

/-- So a body may declare a value without a type, and cast to none. -/
theorem untyped_sum_declared :
    ∃ c b, Sample.standardCompiler.assemble Sample.untypedSum "out" Sample.mixed = .ok (c, b) ∧
      " sum = ()varying.a + ()varying.b;" ∈ b.statements.map Statement.render := by
  obtain ⟨c, b, hok, hb⟩ := Sample.untypedSum_body
  exact ⟨c, b, hok, by rw [hb]; exact List.mem_cons_self ..⟩

end Shading
