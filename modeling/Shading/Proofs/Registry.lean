/-
  What texts stand for in a registry.

  * `builtin_inj`: the types built in are known from their names, whatever the
    case of the letters.
  * `TypeRegistry.latest?`: the last of some types that has a name.  It is the
    one that a registry finds after all of them are registered
    (`get?_registerAll`).
  * `key_trim`: blanks around a text and the case of its letters have nothing to
    do with each other.
  * `parse_stable`: what a text stands for is what its name stands for, and
    depends neither on blanks around it nor, if the name is known, on the case
    of its letters.
-/
import Shading.Proofs.Declared

namespace Shading

/-! ## Names of numeric types -/

/-- Where a list goes on differently after its first elements with a property,
    these are known. -/
theorem append_inj_of_all {α : Type} {p : α → Bool} {as as' bs bs' : List α}
    (has : ∀ a ∈ as, p a = true) (has' : ∀ a ∈ as', p a = true)
    (hbs : ∀ b ∈ bs.head?, p b = false) (hbs' : ∀ b ∈ bs'.head?, p b = false)
    (h : as ++ bs = as' ++ bs') : as = as' ∧ bs = bs' := by
  have hstop : ∀ cs : List α, (∀ b ∈ cs.head?, p b = false) → cs.takeWhile p = [] := by
    intro cs hcs
    cases cs with
    | nil => rfl
    | cons c cs => simp [hcs c rfl]
  have htake := congrArg (List.takeWhile p) h
  rw [List.takeWhile_append_of_pos has, List.takeWhile_append_of_pos has', hstop bs hbs,
    hstop bs' hbs', List.append_nil, List.append_nil] at htake
  rw [htake] at h
  exact ⟨htake, List.append_cancel_left h⟩

theorem isDigit_of_mem_numeral {n : Nat} {c : Char} (h : c ∈ (toString n).toList) :
    c.isDigit = true := by
  rw [Nat.toString_eq_ofList_toDigits, String.toList_ofList] at h
  exact Nat.isDigit_of_mem_toDigits (by decide) (by decide) h

theorem numeral_ne_nil (n : Nat) : (toString n).toList ≠ [] := by
  rw [Nat.toString_eq_ofList_toDigits, String.toList_ofList]
  exact Nat.toDigits_ne_nil

theorem toLower_of_isDigit {c : Char} (h : c.isDigit = true) : c.toLower = c := by
  simp only [Char.isDigit, Bool.and_eq_true, decide_eq_true_eq] at h
  unfold Char.toLower
  split
  · rename_i hcapital
    have hlow : 65 ≤ c.toNat := hcapital.1
    have hhigh : c.toNat ≤ 57 := h.2
    omega
  · rfl

namespace Scalar

theorem name_inj {s s' : Scalar} (h : s.name = s'.name) : s = s' := by
  cases s <;> cases s' <;> first | rfl | (simp [name] at h)

theorem letters (s : Scalar) :
    ∀ c ∈ s.name.toList, c.isDigit = false ∧ c.toLower = c ∧ c ≠ 'r' := by
  cases s <;> simp [name]

end Scalar

namespace Shape

/-- The part of a name that tells the size. -/
def size : Shape → List Char
  | scalar _ => []
  | vector _ size => (toString size).toList
  | matrix _ rows cols => (toString rows).toList ++ 'x' :: (toString cols).toList

theorem toList_name (a : Shape) : a.name.toList = a.element.name.toList ++ a.size := by
  cases a <;> simp [name, element, size]

theorem mem_size {a : Shape} {c : Char} (h : c ∈ a.size) : c.isDigit = true ∨ c = 'x' := by
  cases a with
  | scalar s => cases h
  | vector s size => exact Or.inl (isDigit_of_mem_numeral h)
  | matrix s rows cols =>
    rcases List.mem_append.1 h with h | h
    · exact Or.inl (isDigit_of_mem_numeral h)
    · rcases List.mem_cons.1 h with h | h
      · exact Or.inr h
      · exact Or.inl (isDigit_of_mem_numeral h)

theorem size_head {a : Shape} {c : Char} (h : c ∈ a.size.head?) : c.isDigit = true := by
  cases a with
  | scalar s => cases h
  | vector s size => exact isDigit_of_mem_numeral (List.mem_of_mem_head? h)
  | matrix s rows cols =>
    cases hrows : (toString rows).toList with
    | nil => exact absurd hrows (numeral_ne_nil rows)
    | cons d ds =>
      simp only [size, hrows, List.cons_append, List.head?_cons, Option.mem_some] at h
      exact isDigit_of_mem_numeral (n := rows) (hrows ▸ h ▸ List.mem_cons_self ..)

/-- Numbers of components and of rows and columns are told apart. -/
theorem size_vector_ne_matrix (s s' : Scalar) (n rows cols : Nat) :
    (vector s n).size ≠ (matrix s' rows cols).size := by
  intro h
  have hx : 'x' ∈ (toString n).toList := by
    change 'x' ∈ (vector s n).size
    rw [h]
    simp [size]
  exact absurd (isDigit_of_mem_numeral hx) (by decide)

/-- Numeric types are known from the types of their components and their
    sizes. -/
theorem size_inj {a b : Shape} (helement : a.element = b.element) (h : a.size = b.size) :
    a = b := by
  cases a with
  | scalar s =>
    cases b with
    | scalar => exact congrArg scalar helement
    | vector _ n => exact absurd h.symm (numeral_ne_nil n)
    | matrix => simp [size] at h
  | vector s n =>
    cases b with
    | scalar => exact absurd h (numeral_ne_nil n)
    | vector => exact congrArg₂ vector helement (Text.numeral_inj (String.toList_inj.1 h))
    | matrix => exact absurd h (size_vector_ne_matrix _ _ _ _ _)
  | matrix s r c =>
    cases b with
    | scalar => simp [size] at h
    | vector => exact absurd h.symm (size_vector_ne_matrix _ _ _ _ _)
    | matrix s' r' c' =>
      have hnumeral : ∀ n : Nat, ∀ d ∈ (toString n).toList, d.isDigit = true := fun n d =>
        isDigit_of_mem_numeral
      obtain ⟨hrows, hcols⟩ := append_inj_of_all (hnumeral r) (hnumeral r') (by simp) (by simp) h
      obtain rfl := Text.numeral_inj (String.toList_inj.1 hrows)
      obtain rfl := Text.numeral_inj (String.toList_inj.1 (List.cons_inj_right _ |>.1 hcols))
      exact congrArg (matrix · r c) helement

/-- **Numeric types are known from their names.** -/
theorem name_inj {a b : Shape} (h : a.name = b.name) : a = b := by
  have hlist := congrArg String.toList h
  rw [toList_name, toList_name] at hlist
  have hletters : ∀ s : Scalar, ∀ c ∈ s.name.toList, (!c.isDigit) = true := fun s c hc => by
    simp [(s.letters c hc).1]
  have hdigits : ∀ a : Shape, ∀ c ∈ a.size.head?, (!c.isDigit) = false := fun a c hc => by
    simp [size_head hc]
  obtain ⟨helement, hsize⟩ :=
    append_inj_of_all (hletters a.element) (hletters b.element) (hdigits a) (hdigits b) hlist
  exact size_inj (Scalar.name_inj (String.toList_inj.1 helement)) hsize

/-- A name of a numeric type has no capitals, and no `r`. -/
theorem letters (a : Shape) : ∀ c ∈ a.name.toList, c.toLower = c ∧ c ≠ 'r' := by
  intro c hc
  rw [toList_name, List.mem_append] at hc
  rcases hc with hc | hc
  · exact (a.element.letters c hc).2
  · rcases mem_size hc with hdigit | rfl
    · refine ⟨toLower_of_isDigit hdigit, ?_⟩
      rintro rfl
      exact absurd hdigit (by decide)
    · decide

end Shape

/-! ## Case and blanks -/

namespace Text

/-- Two texts that differ in the case of ASCII letters at most. -/
def SameButCase (s s' : String) : Prop :=
  List.Forall₂ (fun a b => a.toLower = b.toLower) s.toList s'.toList

theorem isBlank_of_letter {c : Char} (hlow : 65 ≤ c.toNat) (hhigh : c.toNat ≤ 122) :
    isBlank c = false := by
  have hranges : ∀ r ∈ blankRanges, r.2 < 65 ∨ 122 < r.1 := by decide
  simp only [isBlank, List.any_eq_false, Bool.and_eq_true, decide_eq_true_eq]
  intro r hr
  have := hranges r hr
  omega

theorem isBlank_toLower (c : Char) : isBlank c.toLower = isBlank c := by
  unfold Char.toLower
  split
  · rename_i hcapital
    have hlow : 65 ≤ c.toNat := hcapital.1
    have hhigh : c.toNat ≤ 90 := hcapital.2
    have hcode : (c.val + 32).toNat = c.toNat + 32 := by
      rw [UInt32.toNat_add]
      change (c.toNat + 32) % 4294967296 = _
      omega
    rw [isBlank_of_letter hlow (by omega)]
    refine isBlank_of_letter ?_ ?_
    · change 65 ≤ (c.val + 32).toNat
      omega
    · change (c.val + 32).toNat ≤ 122
      omega
  · rfl

end Text

namespace TypeRegistry

open Text

theorem key_eq_iff {s s' : String} : key s = key s' ↔ SameButCase s s' := by
  rw [key, key, String.ofList_inj, SameButCase, ← List.forall₂_eq_eq_eq, List.forall₂_map_left_iff,
    List.forall₂_map_right_iff]

/-- A text may be trimmed before or after its letters are lowered. -/
theorem key_trim (s : String) : key (trim s) = trim (key s) := by
  have hblank : isBlank ∘ Char.toLower = isBlank := funext isBlank_toLower
  simp only [key, trim, dropBlankEnd, String.toList_ofList, ← List.map_reverse, List.dropWhile_map,
    hblank]

/-! ## Types built in -/

theorem key_shape (a : Shape) : key a.name = a.name := by
  have hlower : a.name.toList.map Char.toLower = a.name.toList.map id :=
    List.map_congr_left fun c hc => (a.letters c hc).1
  rw [key, hlower, List.map_id, String.ofList_toList]

theorem key_resource_inj {r r' : Resource} (h : key r.name = key r'.name) : r = r' := by
  have hnodup : (Resource.all.map fun r => key r.name).Nodup := by decide +kernel
  have hall : ∀ r : Resource, r ∈ Resource.all := fun r => by cases r <;> decide
  exact List.inj_on_of_nodup_map hnodup (hall r) (hall r') h

theorem key_resource_ne_shape (r : Resource) (a : Shape) : key r.name ≠ a.name := by
  intro h
  have hr : 'r' ∈ (key r.name).toList := by
    cases r <;> decide +kernel
  exact (a.letters 'r' (h ▸ hr)).2 rfl

/-- **The types built in are known from their names,** whatever the case of the
    letters. -/
theorem builtin_inj {t u : ValueType} (ht : t ∈ builtin) (hu : u ∈ builtin)
    (h : key t.name = key u.name) : t = u := by
  rcases builtin_cases ht with ⟨a, rfl, -⟩ | ⟨r, rfl⟩
  · rcases builtin_cases hu with ⟨b, rfl, -⟩ | ⟨r, rfl⟩
    · rw [ValueType.name, ValueType.name, key_shape, key_shape] at h
      rw [Shape.name_inj h]
    · rw [ValueType.name, ValueType.name, key_shape] at h
      exact absurd h.symm (key_resource_ne_shape r a)
  · rcases builtin_cases hu with ⟨b, rfl, -⟩ | ⟨r', rfl⟩
    · rw [ValueType.name, ValueType.name, key_shape] at h
      exact absurd h (key_resource_ne_shape r b)
    · exact congrArg ValueType.resource (key_resource_inj h)

/-! ## Types that are registered -/

/-- The registry with some more types, registered one after the other. -/
def registerAll (r : TypeRegistry) (ts : List ValueType) : TypeRegistry :=
  ts.foldl register r

/-- The last of some types that has a name, given in the form of keys. -/
def latest? (ts : List ValueType) (name : String) : Option ValueType :=
  ts.reverse.find? fun t => key t.name == name

theorem latest?_concat (ts : List ValueType) (t : ValueType) (name : String) :
    latest? (ts ++ [t]) name = if key t.name = name then some t else latest? ts name := by
  by_cases h : key t.name = name <;> simp [latest?, h]

theorem latest?_eq_some {ts : List ValueType} {name : String} {t : ValueType}
    (h : latest? ts name = some t) : t ∈ ts ∧ key t.name = name :=
  ⟨List.mem_reverse.1 (List.mem_of_find?_eq_some h), by simpa using List.find?_some h⟩

theorem latest?_eq_none_iff {ts : List ValueType} {name : String} :
    latest? ts name = none ↔ ∀ t ∈ ts, key t.name ≠ name := by
  simp [latest?]

/-- A type stays the last of its name while no other type of that name comes. -/
theorem latest?_append_cons {before after : List ValueType} {t : ValueType}
    (h : ∀ u ∈ after, key u.name = key t.name → u = t) :
    latest? (before ++ t :: after) (key t.name) = some t := by
  induction after using List.reverseRecOn with
  | nil => rw [latest?_concat, if_pos rfl]
  | append_singleton after u ih =>
    rw [← List.cons_append, ← List.append_assoc, latest?_concat]
    split
    · rename_i hu
      rw [h u (by simp) hu]
    · exact ih fun v hv => h v (by simp [hv])

theorem get?_standard (name : String) : standard.types.get? name = latest? builtin name := by
  cases hget : standard.types.get? name with
  | some t =>
    obtain ⟨ht, rfl⟩ := standard_get?_eq_some hget
    cases hlatest : latest? builtin (key t.name) with
    | none => exact absurd rfl (latest?_eq_none_iff.1 hlatest t ht)
    | some u =>
      obtain ⟨hu, hkey⟩ := latest?_eq_some hlatest
      rw [builtin_inj hu ht hkey]
  | none =>
    symm
    rw [latest?_eq_none_iff]
    rintro t ht rfl
    have hentry := List.lookup_eq_none_iff.1 hget (key t.name, t)
      (List.mem_map.2 ⟨t, ht, rfl⟩)
    simp at hentry

/-- **The last type that was registered under a name is found.** -/
theorem get?_registerAll (ts : List ValueType) (name : String) :
    (standard.registerAll ts).types.get? name = latest? (builtin ++ ts) name := by
  induction ts using List.reverseRecOn with
  | nil => rw [List.append_nil]; exact get?_standard name
  | append_singleton ts t ih =>
    rw [← List.append_assoc, latest?_concat, ← ih, registerAll, List.foldl_append]
    simp only [List.foldl_cons, List.foldl_nil, register, Dict.get?_insert, eq_comm]
    rfl

theorem parse_registerAll (ts : List ValueType) (text : String) :
    (standard.registerAll ts).parse text =
      (latest? (builtin ++ ts) (key (trim text))).getD (.struct (trim text)) := by
  rw [parse, get?_registerAll]

/-- A text stands for the last type that has its name, or for a struct. -/
theorem parse_cases (ts : List ValueType) (text : String) :
    (∃ t, latest? (builtin ++ ts) (key (trim text)) = some t ∧
      (standard.registerAll ts).parse text = t) ∨
    (latest? (builtin ++ ts) (key (trim text)) = none ∧
      (standard.registerAll ts).parse text = .struct (trim text)) := by
  rw [parse_registerAll]
  cases latest? (builtin ++ ts) (key (trim text)) with
  | none => exact Or.inr ⟨rfl, rfl⟩
  | some t => exact Or.inl ⟨t, rfl, rfl⟩

theorem parse_trim (ts : List ValueType) (text : String) :
    (standard.registerAll ts).parse (trim text) = (standard.registerAll ts).parse text := by
  rw [parse_registerAll, parse_registerAll, trim_trim]

theorem parse_name_parse (ts : List ValueType) (text : String) :
    (standard.registerAll ts).parse ((standard.registerAll ts).parse text).name =
      (standard.registerAll ts).parse text := by
  rcases parse_cases ts text with ⟨t, hlatest, hparse⟩ | ⟨-, hparse⟩
  · -- a text without blanks around it is the name of nothing that has them
    have hkey : key (trim t.name) = key (trim text) := by
      rw [key_trim, (latest?_eq_some hlatest).2, ← key_trim, trim_trim]
    rw [hparse, parse_registerAll, hkey, hlatest, Option.getD_some]
  · have hname : (ValueType.struct (trim text)).name = trim text := rfl
    rw [hparse, hname, parse_trim, hparse]

theorem parse_sameButCase (ts : List ValueType) {text text' : String}
    (h : SameButCase text text') :
    (∃ t ∈ builtin ++ ts, SameButCase t.name (trim text) ∧
      (standard.registerAll ts).parse text = t ∧ (standard.registerAll ts).parse text' = t) ∨
    ((∀ t ∈ builtin ++ ts, ¬ SameButCase t.name (trim text)) ∧
      (standard.registerAll ts).parse text = .struct (trim text) ∧
      (standard.registerAll ts).parse text' = .struct (trim text')) := by
  have hkey : key (trim text') = key (trim text) := by
    rw [key_trim, key_trim, key_eq_iff.2 h]
  simp only [← key_eq_iff]
  rcases parse_cases ts text with ⟨t, hlatest, hparse⟩ | ⟨hnone, hparse⟩
  · obtain ⟨hmem, hname⟩ := latest?_eq_some hlatest
    refine Or.inl ⟨t, hmem, hname, hparse, ?_⟩
    rw [parse_registerAll, hkey, hlatest, Option.getD_some]
  · refine Or.inr ⟨latest?_eq_none_iff.1 hnone, hparse, ?_⟩
    rw [parse_registerAll, hkey, hnone, Option.getD_none]

/-- **What a text stands for is stable.**  Whatever types are registered, the
    name of what a text stands for stands for the same.  Blanks around a text do
    not matter.  Nor does the case of its letters if its name is known; else it
    stands for a struct with the name as it is written.  The name of a type, if
    no blanks are around it, stands for that type until another one of the same
    name is registered, for which it stands then. -/
theorem parse_stable (ts : List ValueType) :
    (∀ text, (standard.registerAll ts).parse ((standard.registerAll ts).parse text).name =
      (standard.registerAll ts).parse text) ∧
    (∀ text, (standard.registerAll ts).parse (trim text) = (standard.registerAll ts).parse text) ∧
    (∀ text text', SameButCase text text' →
      (∃ t ∈ builtin ++ ts, SameButCase t.name (trim text) ∧
        (standard.registerAll ts).parse text = t ∧ (standard.registerAll ts).parse text' = t) ∨
      ((∀ t ∈ builtin ++ ts, ¬ SameButCase t.name (trim text)) ∧
        (standard.registerAll ts).parse text = .struct (trim text) ∧
        (standard.registerAll ts).parse text' = .struct (trim text'))) ∧
    (∀ before t after, builtin ++ ts = before ++ t :: after → trim t.name = t.name →
      (∀ u ∈ after, SameButCase u.name t.name → u = t) →
        (standard.registerAll ts).parse t.name = t) ∧
    ∀ t u : ValueType, trim t.name = t.name → SameButCase u.name t.name →
      (standard.registerAll (ts ++ [u])).parse t.name = u := by
  refine ⟨parse_name_parse ts, parse_trim ts, fun text text' => parse_sameButCase ts, ?_, ?_⟩
  · intro before t after hhistory htrim hafter
    rw [parse_registerAll, htrim, hhistory,
      latest?_append_cons fun u hu hkey => hafter u hu (key_eq_iff.1 hkey), Option.getD_some]
  · intro t u htrim hsame
    rw [parse_registerAll, htrim, ← List.append_assoc, latest?_concat,
      if_pos (key_eq_iff.2 hsame), Option.getD_some]

/-- A struct may take over the name of a type built in. -/
example : (standard.registerAll [.struct "Float4"]).parse " FLOAT4 " = .struct "Float4" := by
  rw [parse_registerAll, latest?_concat, if_pos (by decide +kernel), Option.getD_some]

end TypeRegistry

end Shading
