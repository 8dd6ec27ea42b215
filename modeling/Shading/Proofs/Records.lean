/-
  What records are read from.

  The fields of a record are read independently of each other: two records
  side by side are read from an object if each of them is (`reads_both`), and
  from an array if the first is read from its beginning and the second from
  the rest (`takes_both`).  With one field that is a statement about the
  members of that name (`reads_fieldOr`).
-/
import Mathlib.Data.List.Basic
import Shading.Json.Record

namespace Shading.Json

section Except

variable {ε α β : Type}

theorem bind_ok_iff {x : Except ε α} {f : α → Except ε β} {b : β} :
    (x >>= f) = .ok b ↔ ∃ a, x = .ok a ∧ f a = .ok b := by
  cases x with
  | error e => simp [bind, Except.bind]
  | ok a => simp [bind, Except.bind]

theorem map_ok_iff {x : Except ε α} {f : α → β} {b : β} :
    (f <$> x) = .ok b ↔ ∃ a, x = .ok a ∧ f a = b := by
  cases x with
  | error e => simp [Functor.map, Except.map]
  | ok a => simp [Functor.map, Except.map]

end Except

/-! ## Closed arrays and objects -/

/-- The elements of an array that is closed after them. -/
def Items.closed : List Draft → Items
  | [] => .stop .closed
  | v :: vs => .cons v (closed vs)

/-- The members of an object that is closed after them. -/
def Members.closed : List (Quoted × Draft) → Members
  | [] => .stop .closed
  | (name, v) :: ms => .cons name v (closed ms)

/-- The values of the members with a name. -/
def valuesOf (name : String) (ms : List (Quoted × Draft)) : List Draft :=
  ms.filterMap fun m =>
    match m.1 with
    | .ok key => if key = name then some m.2 else none
    | .error _ => none

@[simp] theorem valuesOf_nil (name : String) : valuesOf name [] = [] := rfl

@[simp] theorem valuesOf_cons (name key : String) (v : Draft) (ms : List (Quoted × Draft)) :
    valuesOf name ((.ok key, v) :: ms) =
      if key = name then v :: valuesOf name ms else valuesOf name ms := by
  by_cases h : key = name
  · simp [valuesOf, h]
  · simp [valuesOf, h]

/-- All names are read as texts, and the values of those that are not among
    `names` can be skipped. -/
def Passable (names : List String) (ms : List (Quoted × Draft)) : Prop :=
  ∀ m ∈ ms, ∃ key, m.1 = .ok key ∧ (key ∉ names → m.2.skip? = none)

theorem passable_nil (names : List String) : Passable names [] :=
  fun m hm => by cases hm

theorem passable_cons {names : List String} {key : String} {v : Draft}
    {ms : List (Quoted × Draft)} :
    Passable names ((.ok key, v) :: ms) ↔
      (key ∉ names → v.skip? = none) ∧ Passable names ms := by
  simp [Passable]

theorem not_passable_error {names : List String} {f : Flaw} {v : Draft}
    {ms : List (Quoted × Draft)} (h : Passable names ((.error f, v) :: ms)) : False := by
  obtain ⟨key, hkey, -⟩ := h _ (List.mem_cons_self ..)
  cases hkey

/-! ## Reading members -/

namespace Slot

variable {σ τ : Type} {slots : List (Slot σ)} {ms : List (Quoted × Draft)} {s s' : σ} {v : Draft}

theorem readMembers_nil : readMembers slots (.closed []) s = .ok s' ↔ s = s' := by
  show Except.ok s = Except.ok s' ↔ s = s'
  simp

theorem readMembers_error (f : Flaw) :
    ¬readMembers slots (.closed ((.error f, v) :: ms)) s = .ok s' := by
  intro h
  cases h

theorem readMembers_unknown {key : String} (h : slots.find? (·.name == key) = none) :
    readMembers slots (.closed ((.ok key, v) :: ms)) s = .ok s' ↔
      v.skip? = none ∧ readMembers slots (.closed ms) s = .ok s' := by
  have hstep : readMembers slots (.closed ((.ok key, v) :: ms)) s =
      unlessFlaw v.skip? >>= fun _ => readMembers slots (.closed ms) s := by
    simp only [Members.closed, readMembers, Except.mapError, bind, Except.bind, h]
  rw [hstep, bind_ok_iff]
  cases v.skip? with
  | none =>
    constructor
    · rintro ⟨-, -, hrest⟩
      exact ⟨rfl, hrest⟩
    · rintro ⟨-, hrest⟩
      exact ⟨(), rfl, hrest⟩
  | some f =>
    constructor
    · rintro ⟨u, hflaw, hrest⟩
      cases hflaw
    · rintro ⟨hflaw, hrest⟩
      cases hflaw

theorem readMembers_known {key : String} {slot : Slot σ}
    (h : slots.find? (·.name == key) = some slot) :
    readMembers slots (.closed ((.ok key, v) :: ms)) s = .ok s' ↔
      slot.isFilled s = false ∧
        ∃ t, slot.fill v s = .ok t ∧ readMembers slots (.closed ms) t = .ok s' := by
  have hstep : readMembers slots (.closed ((.ok key, v) :: ms)) s =
      if slot.isFilled s then .error (.duplicateField key)
      else slot.fill v s >>= fun t => readMembers slots (.closed ms) t := by
    simp only [Members.closed, readMembers, Except.mapError, bind, Except.bind, h]
  rw [hstep]
  by_cases hf : slot.isFilled s = true
  · simp [hf]
  · simp [hf, bind_ok_iff]

theorem find?_inFirst (slots : List (Slot σ)) (key : String) :
    (slots.map (inFirst (τ := τ))).find? (·.name == key) =
      (slots.find? (·.name == key)).map inFirst := by
  rw [List.find?_map]
  rfl

theorem find?_inSecond (slots : List (Slot σ)) (key : String) :
    (slots.map (inSecond (τ := τ))).find? (·.name == key) =
      (slots.find? (·.name == key)).map inSecond := by
  rw [List.find?_map]
  rfl

theorem find?_eq_none_iff {key : String} :
    slots.find? (·.name == key) = none ↔ key ∉ slots.map (·.name) := by
  simp [List.find?_eq_none]

/-- A field refuses whatever cannot be skipped. -/
def Strict (slot : Slot σ) : Prop :=
  ∀ d s s', slot.fill d s = .ok s' → d.skip? = none

/-- Two lists of fields are read side by side if each is read by itself. -/
theorem readMembers_both {P : List (Slot σ)} {Q : List (Slot τ)} (hP : ∀ p ∈ P, p.Strict)
    (hQ : ∀ q ∈ Q, q.Strict) (hne : ∀ key ∈ P.map (·.name), key ∉ Q.map (·.name))
    {s s' : σ} {t t' : τ} :
    readMembers (P.map inFirst ++ Q.map inSecond) (.closed ms) (s, t) = .ok (s', t') ↔
      readMembers P (.closed ms) s = .ok s' ∧ readMembers Q (.closed ms) t = .ok t' := by
  induction ms generalizing s t with
  | nil => rw [readMembers_nil, readMembers_nil, readMembers_nil, Prod.mk.injEq]
  | cons m ms ih =>
    obtain ⟨name, v⟩ := m
    cases name with
    | error f =>
      exact ⟨fun h => (readMembers_error f h).elim, fun h => (readMembers_error f h.1).elim⟩
    | ok key =>
      have hfind : (P.map inFirst ++ Q.map inSecond).find? (·.name == key) =
          ((P.find? (·.name == key)).map inFirst).or ((Q.find? (·.name == key)).map inSecond) := by
        rw [List.find?_append, find?_inFirst, find?_inSecond]
      cases hp : P.find? (·.name == key) with
      | some p =>
        -- a field of the first list, which the second one skips
        have hmem : key ∈ P.map (·.name) := by
          refine Classical.byContradiction fun hc => ?_
          rw [find?_eq_none_iff.2 hc] at hp
          cases hp
        have hq : Q.find? (·.name == key) = none := find?_eq_none_iff.2 (hne key hmem)
        rw [hp, hq] at hfind
        rw [readMembers_known hfind, readMembers_known hp, readMembers_unknown hq]
        constructor
        · rintro ⟨hfill, u, hu, hrest⟩
          obtain ⟨s₁, hs₁, rfl⟩ := map_ok_iff.1 hu
          obtain ⟨h₁, h₂⟩ := ih.1 hrest
          exact ⟨⟨hfill, s₁, hs₁, h₁⟩, hP p (List.mem_of_find?_eq_some hp) v s s₁ hs₁, h₂⟩
        · rintro ⟨⟨hfill, s₁, hs₁, h₁⟩, -, h₂⟩
          exact ⟨hfill, (s₁, t), map_ok_iff.2 ⟨s₁, hs₁, rfl⟩, ih.2 ⟨h₁, h₂⟩⟩
      | none =>
        cases hq : Q.find? (·.name == key) with
        | some q =>
          rw [hp, hq] at hfind
          rw [readMembers_known hfind, readMembers_unknown hp, readMembers_known hq]
          constructor
          · rintro ⟨hfill, u, hu, hrest⟩
            obtain ⟨t₁, ht₁, rfl⟩ := map_ok_iff.1 hu
            obtain ⟨h₁, h₂⟩ := ih.1 hrest
            exact ⟨⟨hQ q (List.mem_of_find?_eq_some hq) v t t₁ ht₁, h₁⟩, hfill, t₁, ht₁, h₂⟩
          · rintro ⟨⟨-, h₁⟩, hfill, t₁, ht₁, h₂⟩
            exact ⟨hfill, (s, t₁), map_ok_iff.2 ⟨t₁, ht₁, rfl⟩, ih.2 ⟨h₁, h₂⟩⟩
        | none =>
          rw [hp, hq] at hfind
          rw [readMembers_unknown hfind, readMembers_unknown hp, readMembers_unknown hq, ih]
          constructor
          · rintro ⟨hv, h₁, h₂⟩
            exact ⟨⟨hv, h₁⟩, hv, h₂⟩
          · rintro ⟨⟨hv, h₁⟩, -, h₂⟩
            exact ⟨hv, h₁, h₂⟩

/-! ## Reading elements -/

theorem readItems_nil (surplus : Fault) (slots : List (Slot σ)) :
    readItems surplus slots (.closed []) s = .ok s' ↔ s = s' := by
  cases slots with
  | nil =>
    show Except.ok s = Except.ok s' ↔ s = s'
    simp
  | cons slot slots =>
    show Except.ok s = Except.ok s' ↔ s = s'
    simp

theorem readItems_surplus (surplus : Fault) (vs : List Draft) :
    ¬readItems surplus [] (.closed (v :: vs)) s = .ok s' := by
  intro h
  cases h

theorem readItems_cons {surplus : Fault} {slot : Slot σ} {vs : List Draft} :
    readItems surplus (slot :: slots) (.closed (v :: vs)) s = .ok s' ↔
      ∃ t, slot.fill v s = .ok t ∧ readItems surplus slots (.closed vs) t = .ok s' :=
  bind_ok_iff

theorem readItems_second {surplus : Fault} {Q : List (Slot τ)} {vs : List Draft} {t t' : τ} :
    readItems surplus (Q.map inSecond) (.closed vs) (s, t) = .ok (s', t') ↔
      s = s' ∧ readItems surplus Q (.closed vs) t = .ok t' := by
  induction Q generalizing vs t with
  | nil =>
    cases vs with
    | nil => rw [readItems_nil, readItems_nil, Prod.mk.injEq]
    | cons v vs =>
      exact ⟨fun h => (readItems_surplus _ _ h).elim, fun h => (readItems_surplus _ _ h.2).elim⟩
  | cons q Q ih =>
    cases vs with
    | nil => rw [readItems_nil, readItems_nil, Prod.mk.injEq]
    | cons v vs =>
      rw [List.map_cons, readItems_cons, readItems_cons]
      constructor
      · rintro ⟨u, hu, hrest⟩
        obtain ⟨t₁, ht₁, rfl⟩ := map_ok_iff.1 hu
        obtain ⟨rfl, h₂⟩ := ih.1 hrest
        exact ⟨rfl, t₁, ht₁, h₂⟩
      · rintro ⟨rfl, t₁, ht₁, h₂⟩
        exact ⟨(s, t₁), map_ok_iff.2 ⟨t₁, ht₁, rfl⟩, ih.2 ⟨rfl, h₂⟩⟩

/-- The first list of fields is read from the first elements, the second from
    the rest. -/
theorem readItems_both {surplus : Fault} {P : List (Slot σ)} {Q : List (Slot τ)} {vs : List Draft}
    {s s' : σ} {t t' : τ} :
    readItems surplus (P.map inFirst ++ Q.map inSecond) (.closed vs) (s, t) = .ok (s', t') ↔
      readItems surplus P (.closed (vs.take P.length)) s = .ok s' ∧
        readItems surplus Q (.closed (vs.drop P.length)) t = .ok t' := by
  induction P generalizing vs s with
  | nil =>
    rw [List.map_nil, List.nil_append, readItems_second]
    show _ ↔ readItems surplus [] (.closed []) s = .ok s' ∧ _
    rw [readItems_nil]
    rfl
  | cons p P ih =>
    cases vs with
    | nil =>
      rw [List.take_nil, List.drop_nil, readItems_nil, readItems_nil, readItems_nil, Prod.mk.injEq]
    | cons v vs =>
      rw [List.map_cons, List.cons_append, readItems_cons, List.length_cons, List.take_succ_cons,
        List.drop_succ_cons, readItems_cons]
      constructor
      · rintro ⟨u, hu, hrest⟩
        obtain ⟨s₁, hs₁, rfl⟩ := map_ok_iff.1 hu
        obtain ⟨h₁, h₂⟩ := ih.1 hrest
        exact ⟨⟨s₁, hs₁, h₁⟩, h₂⟩
      · rintro ⟨⟨s₁, hs₁, h₁⟩, h₂⟩
        exact ⟨(s₁, t), map_ok_iff.2 ⟨s₁, hs₁, rfl⟩, ih.2 ⟨h₁, h₂⟩⟩

end Slot

/-! ## Records -/

/-- A reader refuses whatever cannot be skipped. -/
class Reader.Strict {α : Type} (r : Reader α) : Prop where
  skips : ∀ d a, r d = .ok a → d.skip? = none

namespace Record

variable {α β : Type}

/-- The names of the fields. -/
def names (p : Record α) : List String :=
  p.slots.map (·.name)

/-- The record is read from the members of an object. -/
def Reads (p : Record α) (ms : List (Quoted × Draft)) (a : α) : Prop :=
  p.ofMembers (.closed ms) = .ok a

/-- The record is read from the elements of an array, whatever is reported for
    arrays that are too short or too long. -/
def Takes (p : Record α) (vs : List Draft) (a : α) : Prop :=
  ∀ surplus missing, (Slot.readItems surplus p.slots (.closed vs) p.start >>= p.finish missing) =
    .ok a

/-- Fields refuse what cannot be skipped, and whether they are all there does
    not depend on what is reported for those that are not. -/
class Lawful (p : Record α) : Prop where
  strict : ∀ slot ∈ p.slots, slot.Strict
  finish : ∀ missing missing' s a, p.finish missing s = .ok a → p.finish missing' s = .ok a

theorem readItems_congr {σ : Type} {fault fault' : Fault} {slots : List (Slot σ)}
    {vs : List Draft} {s s' : σ} (h : Slot.readItems fault slots (.closed vs) s = .ok s') :
    Slot.readItems fault' slots (.closed vs) s = .ok s' := by
  induction slots generalizing vs s with
  | nil =>
    cases vs with
    | nil => exact h
    | cons v vs => exact (Slot.readItems_surplus _ _ h).elim
  | cons slot slots ih =>
    cases vs with
    | nil => exact h
    | cons v vs =>
      obtain ⟨t, ht, hrest⟩ := Slot.readItems_cons.1 h
      exact Slot.readItems_cons.2 ⟨t, ht, ih hrest⟩

theorem takes_iff {p : Record α} [h : p.Lawful] {vs : List Draft} {a : α} (surplus : Fault)
    (missing : String → Fault) :
    p.Takes vs a ↔ ∃ s, Slot.readItems surplus p.slots (.closed vs) p.start = .ok s ∧
      p.finish missing s = .ok a := by
  constructor
  · intro ht
    exact bind_ok_iff.1 (ht surplus missing)
  · rintro ⟨s, hs, hfinish⟩ surplus' missing'
    exact bind_ok_iff.2 ⟨s, readItems_congr hs, h.finish missing missing' s a hfinish⟩

theorem ofItems_iff {p : Record α} [p.Lawful] {vs : List Draft} {a : α} (expected : String)
    (surplus : Fault) : p.ofItems expected surplus (.closed vs) = .ok a ↔ p.Takes vs a := by
  rw [takes_iff surplus, ofItems, bind_ok_iff]

/-! ### No fields -/

instance (a : α) : (const a).Lawful :=
  ⟨(by intro slot h; cases h), fun _ _ _ _ h => h⟩

@[simp] theorem names_const (a : α) : (const a).names = [] := rfl

theorem reads_const {a b : α} {ms : List (Quoted × Draft)} :
    (const a).Reads ms b ↔ Passable [] ms ∧ a = b := by
  have hread (s : Unit) : (Slot.readMembers [] (.closed ms) () = .ok s) ↔ Passable [] ms := by
    induction ms with
    | nil => exact ⟨fun _ => passable_nil [], fun _ => rfl⟩
    | cons m ms ih =>
      obtain ⟨name, v⟩ := m
      cases name with
      | error f =>
        exact ⟨fun h => (Slot.readMembers_error f h).elim, fun h => (not_passable_error h).elim⟩
      | ok key =>
        rw [Slot.readMembers_unknown rfl, passable_cons, ih]
        simp
  rw [Reads, ofMembers, bind_ok_iff]
  constructor
  · rintro ⟨s, hs, hfinish⟩
    cases hfinish
    exact ⟨(hread s).1 hs, rfl⟩
  · rintro ⟨hpass, rfl⟩
    exact ⟨(), (hread ()).2 hpass, rfl⟩

theorem takes_const {a b : α} {vs : List Draft} : (const a).Takes vs b ↔ vs = [] ∧ a = b := by
  rw [takes_iff (.flaw .trailingText) .missingField]
  constructor
  · rintro ⟨s, hs, hfinish⟩
    cases hfinish
    cases vs with
    | nil => exact ⟨rfl, rfl⟩
    | cons v vs => exact (Slot.readItems_surplus _ _ hs).elim
  · rintro ⟨rfl, rfl⟩
    exact ⟨(), rfl, rfl⟩

/-! ### One field -/

instance (name : String) (r : Reader α) [hr : r.Strict] (absent : Option α) :
    (fieldOr name r absent).Lawful := by
  refine ⟨?_, ?_⟩
  · intro slot hslot d s s' hfill
    cases List.mem_singleton.1 hslot
    obtain ⟨a, ha, -⟩ := map_ok_iff.1 hfill
    exact hr.skips d a ha
  · intro missing missing' s a h
    simp only [fieldOr] at h ⊢
    cases hs : s.or absent with
    | none =>
      rw [hs] at h
      cases h
    | some b =>
      rw [hs] at h
      exact h

instance (name : String) (r : Reader α) [r.Strict] : (field name r).Lawful :=
  inferInstanceAs (fieldOr name r none).Lawful

instance (name : String) (r : Reader α) [r.Strict] (absent : α) : (fieldD name r absent).Lawful :=
  inferInstanceAs (fieldOr name r (some absent)).Lawful

@[simp] theorem names_fieldOr (name : String) (r : Reader α) (absent : Option α) :
    (fieldOr name r absent).names = [name] := rfl

@[simp] theorem names_field (name : String) (r : Reader α) : (field name r).names = [name] := rfl

@[simp] theorem names_fieldD (name : String) (r : Reader α) (absent : α) :
    (fieldD name r absent).names = [name] := rfl

@[simp] theorem names_field? (name : String) (r : Reader α) : (field? name r).names = [name] := rfl

/-- The one field of `fieldOr`. -/
def fieldSlot (name : String) (r : Reader α) : Slot (Option α) :=
  ⟨name, Option.isSome, fun d _ => some <$> r d⟩

section
variable {name : String} {r : Reader α} {ms : List (Quoted × Draft)} {v : Draft} {s s' : Option α}

theorem readMembers_fieldSlot_self :
    Slot.readMembers [fieldSlot name r] (.closed ((.ok name, v) :: ms)) s = .ok s' ↔
      s = none ∧ ∃ b, r v = .ok b ∧
        Slot.readMembers [fieldSlot name r] (.closed ms) (some b) = .ok s' := by
  have hfind : [fieldSlot name r].find? (·.name == name) = some (fieldSlot name r) := by
    simp [fieldSlot]
  rw [Slot.readMembers_known hfind]
  simp [fieldSlot, map_ok_iff]

theorem readMembers_fieldSlot_other {key : String} (hkey : key ≠ name) :
    Slot.readMembers [fieldSlot name r] (.closed ((.ok key, v) :: ms)) s = .ok s' ↔
      v.skip? = none ∧ Slot.readMembers [fieldSlot name r] (.closed ms) s = .ok s' := by
  have hfind : [fieldSlot name r].find? (·.name == key) = none := by
    simp [fieldSlot, Ne.symm hkey]
  exact Slot.readMembers_unknown hfind

theorem readMembers_fieldSlot_filled {b : α} :
    Slot.readMembers [fieldSlot name r] (.closed ms) (some b) = .ok s ↔
      Passable [name] ms ∧ valuesOf name ms = [] ∧ some b = s := by
  induction ms with
  | nil => simp [Slot.readMembers_nil, passable_nil]
  | cons m ms ih =>
    obtain ⟨key, v⟩ := m
    cases key with
    | error f =>
      exact ⟨fun h => (Slot.readMembers_error f h).elim, fun h => (not_passable_error h.1).elim⟩
    | ok key =>
      by_cases hkey : key = name
      · subst hkey
        rw [readMembers_fieldSlot_self, valuesOf_cons, if_pos rfl]
        simp
      · rw [readMembers_fieldSlot_other hkey, ih, passable_cons, valuesOf_cons, if_neg hkey]
        simp [hkey, and_assoc]

theorem readMembers_fieldSlot :
    Slot.readMembers [fieldSlot name r] (.closed ms) none = .ok s ↔
      Passable [name] ms ∧ (valuesOf name ms = [] ∧ s = none ∨
        ∃ v b, valuesOf name ms = [v] ∧ r v = .ok b ∧ s = some b) := by
  induction ms with
  | nil =>
    rw [Slot.readMembers_nil, eq_comm]
    simp [passable_nil]
  | cons m ms ih =>
    obtain ⟨key, v⟩ := m
    cases key with
    | error f =>
      exact ⟨fun h => (Slot.readMembers_error f h).elim, fun h => (not_passable_error h.1).elim⟩
    | ok key =>
      by_cases hkey : key = name
      · subst hkey
        rw [readMembers_fieldSlot_self, passable_cons, valuesOf_cons, if_pos rfl]
        constructor
        · rintro ⟨-, b, hb, hrest⟩
          obtain ⟨hpass, hnil, rfl⟩ := readMembers_fieldSlot_filled.1 hrest
          exact ⟨⟨by simp, hpass⟩, .inr ⟨v, b, by rw [hnil], hb, rfl⟩⟩
        · rintro ⟨⟨-, hpass⟩, ⟨hnil, -⟩ | ⟨w, b, hw, hb, rfl⟩⟩
          · cases hnil
          · injection hw with hvw hnil
            subst hvw
            exact ⟨rfl, b, hb, readMembers_fieldSlot_filled.2 ⟨hpass, hnil, rfl⟩⟩
      · rw [readMembers_fieldSlot_other hkey, ih, passable_cons, valuesOf_cons, if_neg hkey]
        simp [hkey, and_assoc]

end

theorem finish_fieldOr {name : String} {r : Reader α} {absent : Option α}
    {missing : String → Fault} {s : Option α} {a : α} :
    (fieldOr name r absent).finish missing s = .ok a ↔ s.or absent = some a := by
  cases hs : s.or absent with
  | none => simp [fieldOr, hs]
  | some b => simp [fieldOr, hs]

/-- A field is read from the only member of its name, or it has the value that
    it has if there is none. -/
theorem reads_fieldOr {name : String} {r : Reader α} {absent : Option α}
    {ms : List (Quoted × Draft)} {a : α} :
    (fieldOr name r absent).Reads ms a ↔ Passable [name] ms ∧
      (valuesOf name ms = [] ∧ absent = some a ∨ ∃ v, valuesOf name ms = [v] ∧ r v = .ok a) := by
  have hsplit : (fieldOr name r absent).Reads ms a ↔
      ∃ s, Slot.readMembers [fieldSlot name r] (.closed ms) none = .ok s ∧
        s.or absent = some a := by
    refine Iff.trans bind_ok_iff ?_
    constructor
    · rintro ⟨s, hs, hfinish⟩
      exact ⟨s, hs, finish_fieldOr.1 hfinish⟩
    · rintro ⟨s, hs, hfinish⟩
      exact ⟨s, hs, finish_fieldOr.2 hfinish⟩
  rw [hsplit]
  constructor
  · rintro ⟨s, hs, hor⟩
    obtain ⟨hpass, ⟨hnil, rfl⟩ | ⟨v, b, hv, hb, rfl⟩⟩ := readMembers_fieldSlot.1 hs
    · exact ⟨hpass, .inl ⟨hnil, hor⟩⟩
    · cases hor
      exact ⟨hpass, .inr ⟨v, hv, hb⟩⟩
  · rintro ⟨hpass, ⟨hnil, rfl⟩ | ⟨v, hv, ha⟩⟩
    · exact ⟨none, readMembers_fieldSlot.2 ⟨hpass, .inl ⟨hnil, rfl⟩⟩, rfl⟩
    · exact ⟨some a, readMembers_fieldSlot.2 ⟨hpass, .inr ⟨v, a, hv, ha, rfl⟩⟩, rfl⟩

theorem takes_fieldOr {name : String} {r : Reader α} {absent : Option α} {vs : List Draft} {a : α} :
    (fieldOr name r absent).Takes vs a ↔
      vs = [] ∧ absent = some a ∨ ∃ v, vs = [v] ∧ r v = .ok a := by
  have hread (surplus : Fault) (s : Option α) :
      Slot.readItems surplus [fieldSlot name r] (.closed vs) none = .ok s ↔
        vs = [] ∧ s = none ∨ ∃ v b, vs = [v] ∧ r v = .ok b ∧ s = some b := by
    cases vs with
    | nil =>
      rw [Slot.readItems_nil, eq_comm]
      simp
    | cons v vs =>
      rw [Slot.readItems_cons]
      cases vs with
      | nil =>
        constructor
        · rintro ⟨t, hfill, hrest⟩
          obtain ⟨b, hb, rfl⟩ := map_ok_iff.1 hfill
          obtain rfl := (Slot.readItems_nil _ _).1 hrest
          exact .inr ⟨v, b, rfl, hb, rfl⟩
        · rintro (⟨hnil, -⟩ | ⟨w, b, hw, hb, rfl⟩)
          · cases hnil
          · cases hw
            exact ⟨some b, map_ok_iff.2 ⟨b, hb, rfl⟩, (Slot.readItems_nil _ _).2 rfl⟩
      | cons w ws =>
        constructor
        · rintro ⟨t, -, hrest⟩
          exact (Slot.readItems_surplus _ _ hrest).elim
        · rintro (⟨hnil, -⟩ | ⟨w, b, hw, -⟩)
          · cases hnil
          · cases hw
  constructor
  · intro h
    obtain ⟨s, hs, hfinish⟩ := bind_ok_iff.1 (h (.flaw .trailingText) .missingField)
    have hor := finish_fieldOr.1 hfinish
    rcases (hread _ s).1 hs with ⟨rfl, rfl⟩ | ⟨v, b, rfl, hb, rfl⟩
    · exact .inl ⟨rfl, hor⟩
    · cases hor
      exact .inr ⟨v, rfl, hb⟩
  · rintro (⟨rfl, rfl⟩ | ⟨v, rfl, ha⟩) surplus missing
    · exact bind_ok_iff.2 ⟨none, (hread surplus none).2 (.inl ⟨rfl, rfl⟩), finish_fieldOr.2 rfl⟩
    · exact bind_ok_iff.2
        ⟨some a, (hread surplus (some a)).2 (.inr ⟨v, a, rfl, ha, rfl⟩), finish_fieldOr.2 rfl⟩

/-! ### Several fields -/

instance (p : Record α) [h : p.Lawful] (f : α → β) : (p.map f).Lawful := by
  refine ⟨h.strict, ?_⟩
  intro missing missing' s b hb
  obtain ⟨a, ha, rfl⟩ := map_ok_iff.1 hb
  exact map_ok_iff.2 ⟨a, h.finish missing missing' s a ha, rfl⟩

theorem reads_map {p : Record α} {f : α → β} {ms : List (Quoted × Draft)} {b : β} :
    (p.map f).Reads ms b ↔ ∃ a, p.Reads ms a ∧ f a = b := by
  constructor
  · intro h
    obtain ⟨s, hs, hfinish⟩ := bind_ok_iff.1 h
    obtain ⟨a, ha, rfl⟩ := map_ok_iff.1 hfinish
    exact ⟨a, bind_ok_iff.2 ⟨s, hs, ha⟩, rfl⟩
  · rintro ⟨a, h, rfl⟩
    obtain ⟨s, hs, hfinish⟩ := bind_ok_iff.1 h
    exact bind_ok_iff.2 ⟨s, hs, map_ok_iff.2 ⟨a, hfinish, rfl⟩⟩

theorem takes_map {p : Record α} [p.Lawful] {f : α → β} {vs : List Draft} {b : β} :
    (p.map f).Takes vs b ↔ ∃ a, p.Takes vs a ∧ f a = b := by
  rw [takes_iff (.flaw .trailingText) .missingField]
  constructor
  · rintro ⟨s, hs, hfinish⟩
    obtain ⟨a, ha, rfl⟩ := map_ok_iff.1 hfinish
    exact ⟨a, (takes_iff _ _).2 ⟨s, hs, ha⟩, rfl⟩
  · rintro ⟨a, h, rfl⟩
    obtain ⟨s, hs, ha⟩ := (takes_iff (.flaw .trailingText) .missingField).1 h
    exact ⟨s, hs, map_ok_iff.2 ⟨a, ha, rfl⟩⟩

section Both

variable {p : Record α} {q : Record β} [hp : p.Lawful] [hq : q.Lawful]

instance : (p.both q).Lawful := by
  refine ⟨?_, ?_⟩
  · intro slot hslot d s s' hfill
    rcases List.mem_append.1 hslot with h | h
    · obtain ⟨x, hx, rfl⟩ := List.mem_map.1 h
      obtain ⟨t, ht, -⟩ := map_ok_iff.1 hfill
      exact hp.strict x hx d s.1 t ht
    · obtain ⟨x, hx, rfl⟩ := List.mem_map.1 h
      obtain ⟨t, ht, -⟩ := map_ok_iff.1 hfill
      exact hq.strict x hx d s.2 t ht
  · intro missing missing' s c h
    obtain ⟨a, ha, h⟩ := bind_ok_iff.1 h
    obtain ⟨b, hb, h⟩ := bind_ok_iff.1 h
    exact bind_ok_iff.2 ⟨a, hp.finish missing missing' s.1 a ha,
      bind_ok_iff.2 ⟨b, hq.finish missing missing' s.2 b hb, h⟩⟩

omit hp hq in
theorem finish_both {missing : String → Fault} {s : p.State} {t : q.State} {a : α} {b : β} :
    (p.both q).finish missing (s, t) = .ok (a, b) ↔
      p.finish missing s = .ok a ∧ q.finish missing t = .ok b := by
  constructor
  · intro h
    obtain ⟨a', ha, h⟩ := bind_ok_iff.1 h
    obtain ⟨b', hb, h⟩ := bind_ok_iff.1 h
    cases h
    exact ⟨ha, hb⟩
  · rintro ⟨ha, hb⟩
    exact bind_ok_iff.2 ⟨a, ha, bind_ok_iff.2 ⟨b, hb, rfl⟩⟩

theorem reads_both (hne : ∀ key ∈ p.names, key ∉ q.names)
    {ms : List (Quoted × Draft)} {a : α} {b : β} :
    (p.both q).Reads ms (a, b) ↔ p.Reads ms a ∧ q.Reads ms b := by
  constructor
  · intro h
    obtain ⟨⟨s, t⟩, hread, hfinish⟩ := bind_ok_iff.1 h
    obtain ⟨hs, ht⟩ := (Slot.readMembers_both hp.strict hq.strict hne).1 hread
    obtain ⟨ha, hb⟩ := finish_both.1 hfinish
    exact ⟨bind_ok_iff.2 ⟨s, hs, ha⟩, bind_ok_iff.2 ⟨t, ht, hb⟩⟩
  · rintro ⟨h₁, h₂⟩
    obtain ⟨s, hs, ha⟩ := bind_ok_iff.1 h₁
    obtain ⟨t, ht, hb⟩ := bind_ok_iff.1 h₂
    exact bind_ok_iff.2 ⟨(s, t), (Slot.readMembers_both hp.strict hq.strict hne).2 ⟨hs, ht⟩,
      finish_both.2 ⟨ha, hb⟩⟩

theorem takes_both {vs : List Draft} {a : α} {b : β} :
    (p.both q).Takes vs (a, b) ↔
      p.Takes (vs.take p.names.length) a ∧ q.Takes (vs.drop p.names.length) b := by
  have hlength : p.names.length = p.slots.length := List.length_map ..
  rw [hlength, takes_iff (.flaw .trailingText) .missingField]
  constructor
  · rintro ⟨⟨s, t⟩, hread, hfinish⟩
    obtain ⟨hs, ht⟩ := Slot.readItems_both.1 hread
    obtain ⟨ha, hb⟩ := finish_both.1 hfinish
    exact ⟨(takes_iff _ _).2 ⟨s, hs, ha⟩, (takes_iff _ _).2 ⟨t, ht, hb⟩⟩
  · rintro ⟨h₁, h₂⟩
    obtain ⟨s, hs, ha⟩ := (takes_iff (.flaw .trailingText) .missingField).1 h₁
    obtain ⟨t, ht, hb⟩ := (takes_iff (.flaw .trailingText) .missingField).1 h₂
    exact ⟨(s, t), Slot.readItems_both.2 ⟨hs, ht⟩, finish_both.2 ⟨ha, hb⟩⟩

omit hp hq in
theorem names_both : (p.both q).names = p.names ++ q.names := by
  simp only [names, both, List.map_append, List.map_map]
  rfl

end Both

/-! ### Functions of fields -/

section Apply

variable {p : Record (α → β)} {q : Record α} [p.Lawful] [q.Lawful]

instance : (p.apply q).Lawful :=
  inferInstanceAs ((p.both q).map _).Lawful

omit [p.Lawful] [q.Lawful] in
@[simp] theorem names_apply : (p.apply q).names = p.names ++ q.names :=
  names_both

theorem reads_apply (hne : ∀ key ∈ p.names, key ∉ q.names) {ms : List (Quoted × Draft)} {b : β} :
    (p.apply q).Reads ms b ↔ ∃ f a, p.Reads ms f ∧ q.Reads ms a ∧ f a = b := by
  rw [apply, reads_map]
  constructor
  · rintro ⟨⟨f, a⟩, h, rfl⟩
    obtain ⟨h₁, h₂⟩ := (reads_both hne).1 h
    exact ⟨f, a, h₁, h₂, rfl⟩
  · rintro ⟨f, a, h₁, h₂, rfl⟩
    exact ⟨(f, a), (reads_both hne).2 ⟨h₁, h₂⟩, rfl⟩

theorem takes_apply {vs : List Draft} {b : β} :
    (p.apply q).Takes vs b ↔ ∃ f a, p.Takes (vs.take p.names.length) f ∧
      q.Takes (vs.drop p.names.length) a ∧ f a = b := by
  rw [apply, takes_map]
  constructor
  · rintro ⟨⟨f, a⟩, h, rfl⟩
    obtain ⟨h₁, h₂⟩ := takes_both.1 h
    exact ⟨f, a, h₁, h₂, rfl⟩
  · rintro ⟨f, a, h₁, h₂, rfl⟩
    exact ⟨(f, a), takes_both.2 ⟨h₁, h₂⟩, rfl⟩

end Apply

end Record

/-! ## Strict readers -/

namespace Ending

theorem itemFlaw?_eq_none {e : Ending} : e.itemFlaw? = none ↔ e = .closed := by
  cases e with
  | closed => simp [itemFlaw?]
  | ended gap => cases gap <;> simp [itemFlaw?]
  | unexpected gap t => cases gap <;> simp [itemFlaw?]
  | within f => simp [itemFlaw?]

theorem surplusFlaw?_eq_none {e : Ending} : e.surplusFlaw? = none ↔ e = .closed := by
  cases e with
  | closed => simp [surplusFlaw?]
  | ended gap => cases gap <;> simp [surplusFlaw?]
  | unexpected gap t => cases gap <;> simp [surplusFlaw?]
  | within f => simp [surplusFlaw?]

theorem memberFlaw?_eq_none {e : Ending} : e.memberFlaw? = none ↔ e = .closed := by
  cases e with
  | closed => simp [memberFlaw?]
  | ended gap => cases gap <;> simp [memberFlaw?]
  | unexpected gap t =>
    cases gap with
    | separator => simp [memberFlaw?]
    | first | afterComma =>
      cases t with
      | broken quoted b => cases quoted <;> simp [memberFlaw?]
      | _ => simp [memberFlaw?]
  | within f => simp [memberFlaw?]

end Ending

theorem unlessFlaw_ok_iff {o : Option Flaw} {u : Unit} : unlessFlaw o = .ok u ↔ o = none := by
  cases o with
  | none => exact ⟨fun _ => rfl, fun _ => rfl⟩
  | some f =>
    constructor
    · intro h
      cases h
    · intro h
      cases h

theorem Draft.skip?_array {is : Items} (h : is.ending = .closed) :
    (Draft.array is).skip? = none := by
  rw [Draft.skip?, h]
  rfl

theorem Draft.skip?_object {ms : Members} (h : ms.ending = .closed) :
    (Draft.object ms).skip? = none := by
  rw [Draft.skip?, h]
  rfl

theorem Items.ending_of_sound? {depth : Nat} {is : Items} (h : is.sound? depth = none) :
    is.ending = .closed := by
  cases is with
  | stop e => exact Ending.itemFlaw?_eq_none.1 h
  | cons v rest =>
    rw [Items.sound?] at h
    cases hv : v.sound? depth with
    | some f =>
      rw [hv] at h
      cases h
    | none =>
      rw [hv] at h
      show rest.ending = .closed
      exact ending_of_sound? h

namespace Reader

variable {α : Type}

instance : Strict Reader.string where
  skips d a h := by
    cases d with
    | string s => rfl
    | _ => cases h

instance : Strict Reader.bool where
  skips d a h := by
    cases d with
    | bool b => rfl
    | _ => cases h

instance : Strict Reader.single where
  skips d a h := by
    cases d with
    | number n => rfl
    | _ => cases h

instance (r : Reader α) [hr : r.Strict] : Strict r.option where
  skips d a h := by
    cases d with
    | null => rfl
    | _ =>
      obtain ⟨b, hb, -⟩ := map_ok_iff.1 h
      exact hr.skips _ b hb

theorem ending_of_items {r : Reader α} {is : Items} {as : List α} (h : items r is = .ok as) :
    is.ending = .closed := by
  cases is with
  | stop e =>
    obtain ⟨u, hu, -⟩ := map_ok_iff.1 h
    exact Ending.itemFlaw?_eq_none.1 (unlessFlaw_ok_iff.1 hu)
  | cons v rest =>
    obtain ⟨a, -, h⟩ := bind_ok_iff.1 h
    obtain ⟨as, has, -⟩ := bind_ok_iff.1 h
    show rest.ending = .closed
    exact ending_of_items has

instance (r : Reader α) : Strict (Reader.list r) where
  skips d as h := by
    cases d with
    | array is => exact Draft.skip?_array (ending_of_items h)
    | _ => cases h

theorem eq_closed_of_oneMember {ms : Members} {u : Unit} (h : oneMember ms = .ok u) :
    ms = .stop .closed := by
  cases ms with
  | cons name v rest => cases h
  | stop e =>
    cases e with
    | closed => rfl
    | ended gap => cases gap <;> cases h
    | unexpected gap t => cases h
    | within f => cases h

/-- A case is written as its name, or as the name of the only member of an
    object. -/
theorem choice_ok {cases : List (String × α)} {d : Draft} {a : α} (h : choice cases d = .ok a) :
    ∃ name, caseOf cases name = .ok a ∧
      (d = .string (.ok name) ∨ d = .object (.cons (.ok name) .null (.stop .closed))) := by
  cases d with
  | string s =>
    cases s with
    | ok name => exact ⟨name, h, .inl rfl⟩
    | error f => cases h
  | object ms =>
    cases ms with
    | stop e =>
      cases e with
      | closed | ended _ | unexpected _ _ | within _ => cases h
    | cons name v rest =>
      cases name with
      | error f => cases h
      | ok name =>
        cases hcase : caseOf cases name with
        | error f => simp [choice, Except.mapError, hcase, bind, Except.bind] at h
        | ok b =>
          cases v with
          | null =>
            simp only [choice, Except.mapError, hcase, bind, Except.bind] at h
            cases hone : oneMember rest with
            | error f => simp [hone] at h
            | ok u =>
              rw [hone] at h
              cases h
              rw [eq_closed_of_oneMember hone]
              exact ⟨name, hcase, .inr rfl⟩
          | _ => simp [choice, Except.mapError, hcase, bind, Except.bind] at h
  | null | bool _ | number _ | array _ | broken _ => cases h

instance (cases : List (String × α)) : Strict (Reader.choice cases) where
  skips d a h := by
    obtain ⟨name, -, rfl | rfl⟩ := choice_ok h
    · rfl
    · rfl

end Reader

namespace Slot

variable {σ : Type}

theorem ending_of_readMembers {slots : List (Slot σ)} {ms : Members} {s s' : σ}
    (h : readMembers slots ms s = .ok s') : ms.ending = .closed := by
  cases ms with
  | stop e =>
    obtain ⟨u, hu, -⟩ := map_ok_iff.1 h
    exact Ending.memberFlaw?_eq_none.1 (unlessFlaw_ok_iff.1 hu)
  | cons name v rest =>
    obtain ⟨key, -, h⟩ := bind_ok_iff.1 h
    show rest.ending = .closed
    cases hfind : slots.find? (·.name == key) with
    | none =>
      simp only [hfind] at h
      obtain ⟨u, -, h⟩ := bind_ok_iff.1 h
      exact ending_of_readMembers h
    | some slot =>
      simp only [hfind] at h
      by_cases hf : slot.isFilled s = true
      · simp [hf] at h
      · simp only [hf] at h
        obtain ⟨t, -, h⟩ := bind_ok_iff.1 h
        exact ending_of_readMembers h

theorem ending_of_readItems {surplus : Fault} {slots : List (Slot σ)} {is : Items} {s s' : σ}
    (h : readItems surplus slots is s = .ok s') : is.ending = .closed := by
  induction slots generalizing is s with
  | nil =>
    cases is with
    | stop e =>
      obtain ⟨u, hu, -⟩ := map_ok_iff.1 h
      exact Ending.surplusFlaw?_eq_none.1 (unlessFlaw_ok_iff.1 hu)
    | cons v rest => cases h
  | cons slot slots ih =>
    cases is with
    | stop e =>
      obtain ⟨u, hu, -⟩ := map_ok_iff.1 h
      exact Ending.itemFlaw?_eq_none.1 (unlessFlaw_ok_iff.1 hu)
    | cons v rest =>
      obtain ⟨t, -, h⟩ := bind_ok_iff.1 h
      show rest.ending = .closed
      exact ih h

end Slot

instance {α : Type} (p : Record α) (expected : String) : Reader.Strict (p.read expected) where
  skips d a h := by
    cases d with
    | object ms =>
      obtain ⟨s, hs, -⟩ := bind_ok_iff.1 h
      exact Draft.skip?_object (Slot.ending_of_readMembers hs)
    | array is =>
      obtain ⟨s, hs, -⟩ := bind_ok_iff.1 h
      exact Draft.skip?_array (Slot.ending_of_readItems hs)
    | _ => cases h

instance {α : Type} (name : String) (r : Reader α) [r.Strict] : (Record.field? name r).Lawful :=
  inferInstanceAs (Record.fieldD name r.option none).Lawful

namespace Variant

variable {α : Type} {tag : String} {depth : Nat} {cases : List (String × Variant α)}

theorem ending_of_split {ms : Members} {found : Option (Variant α)} {r : Variant α × Members}
    (h : split tag depth cases ms found = .ok r) : ms.ending = .closed := by
  cases ms with
  | stop e =>
    obtain ⟨u, hu, -⟩ := bind_ok_iff.1 h
    exact Ending.memberFlaw?_eq_none.1 (unlessFlaw_ok_iff.1 hu)
  | cons name d rest =>
    obtain ⟨key, -, h⟩ := bind_ok_iff.1 h
    show rest.ending = .closed
    by_cases hkey : key = tag
    · rw [if_pos hkey] at h
      by_cases hfound : found.isSome = true
      · rw [if_pos hfound] at h
        cases h
      · rw [if_neg hfound] at h
        obtain ⟨v, -, h⟩ := bind_ok_iff.1 h
        exact ending_of_split h
    · rw [if_neg hkey] at h
      obtain ⟨u, -, h⟩ := bind_ok_iff.1 h
      obtain ⟨others, h, -⟩ := bind_ok_iff.1 h
      exact ending_of_split h

instance (tag expected : String) (depth : Nat) (cases : List (String × Variant α)) :
    Reader.Strict (Variant.read tag expected depth cases) where
  skips d a h := by
    cases d with
    | object ms =>
      obtain ⟨r, hr, -⟩ := bind_ok_iff.1 h
      exact Draft.skip?_object (ending_of_split hr)
    | array is =>
      cases is with
      | stop e =>
        obtain ⟨u, -, h⟩ := bind_ok_iff.1 h
        cases h
      | cons first rest =>
        obtain ⟨v, -, h⟩ := bind_ok_iff.1 h
        obtain ⟨u, hu, -⟩ := bind_ok_iff.1 h
        have hrest : rest.ending = .closed := Items.ending_of_sound? (unlessFlaw_ok_iff.1 hu)
        exact Draft.skip?_array hrest
    | _ => cases h

end Variant

end Shading.Json
