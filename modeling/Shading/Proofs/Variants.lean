/-
  What tagged records are read from.

  In an object the tag may stand anywhere among the members; all others are
  the contents of the case that it names, and count also where the case has no
  field for them (`read_object_iff`).  In an array the tag is the first
  element (`read_array_iff`).
-/
import Shading.Proofs.Records

namespace Shading.Json

/-- An object that is closed after its members. -/
def Draft.objectOf (ms : List (Quoted × Draft)) : Draft :=
  .object (.closed ms)

/-- An array that is closed after its elements. -/
def Draft.arrayOf (vs : List Draft) : Draft :=
  .array (.closed vs)

/-- Whether a member has a name. -/
def isNamed (name : String) (m : Quoted × Draft) : Bool :=
  match m.1 with
  | .ok key => key == name
  | .error _ => false

/-- The members with other names. -/
def others (name : String) (ms : List (Quoted × Draft)) : List (Quoted × Draft) :=
  ms.filter (!isNamed name ·)

@[simp] theorem others_nil (name : String) : others name [] = [] := rfl

@[simp] theorem others_cons (name key : String) (v : Draft) (ms : List (Quoted × Draft)) :
    others name ((.ok key, v) :: ms) =
      if key = name then others name ms else (.ok key, v) :: others name ms := by
  by_cases h : key = name
  · simp [others, isNamed, h]
  · simp [others, isNamed, h]

theorem valuesOf_others {name tag : String} (h : name ≠ tag) (ms : List (Quoted × Draft)) :
    valuesOf name (others tag ms) = valuesOf name ms := by
  induction ms with
  | nil => rfl
  | cons m ms ih =>
    obtain ⟨key, v⟩ := m
    cases key with
    | error f => exact ih
    | ok key =>
      by_cases htag : key = tag
      · have hname : ¬key = name := fun hkey => h (hkey.symm.trans htag)
        rw [others_cons, if_pos htag, valuesOf_cons, if_neg hname, ih]
      · rw [others_cons, if_neg htag, valuesOf_cons, valuesOf_cons, ih]

/-- All names are read as texts, and everything beside the tag is sound. -/
def SoundBeside (tag : String) (depth : Nat) (ms : List (Quoted × Draft)) : Prop :=
  ∀ m ∈ ms, ∃ key, m.1 = .ok key ∧ (key ≠ tag → m.2.sound? depth = none)

theorem soundBeside_cons {tag key : String} {depth : Nat} {v : Draft}
    {ms : List (Quoted × Draft)} :
    SoundBeside tag depth ((.ok key, v) :: ms) ↔
      (key ≠ tag → v.sound? depth = none) ∧ SoundBeside tag depth ms := by
  simp [SoundBeside]

theorem Items.sound?_closed {depth : Nat} {vs : List Draft} :
    (Items.closed vs).sound? depth = none ↔ ∀ v ∈ vs, v.sound? depth = none := by
  induction vs with
  | nil => simp [Items.closed, Items.sound?, Ending.itemFlaw?]
  | cons v vs ih =>
    rw [Items.closed, Items.sound?]
    cases hv : v.sound? depth with
    | some f => simp [hv]
    | none => simp [hv, ih]

theorem Items.eq_closed : (is : Items) → is.ending = .closed → ∃ vs, is = .closed vs
  | .stop e, h => ⟨[], by rw [Items.closed, ← h]; rfl⟩
  | .cons v rest, h => by
    obtain ⟨vs, rfl⟩ := eq_closed rest h
    exact ⟨v :: vs, rfl⟩

theorem Members.eq_closed : (ms : Members) → ms.ending = .closed → ∃ ns, ms = .closed ns
  | .stop e, h => ⟨[], by rw [Members.closed, ← h]; rfl⟩
  | .cons name v rest, h => by
    obtain ⟨ns, rfl⟩ := eq_closed rest h
    exact ⟨(name, v) :: ns, rfl⟩

theorem Reader.caseOf_ok_iff {α : Type} {cases : List (String × α)} {name : String} {a : α} :
    caseOf cases name = .ok a ↔ cases.lookup name = some a := by
  cases h : cases.lookup name with
  | none => simp [caseOf, h]
  | some b => simp [caseOf, h]

namespace Variant

variable {α : Type} {tag expected : String} {depth : Nat} {cases : List (String × Variant α)}
  {ms : List (Quoted × Draft)} {v : Variant α} {a : α}

theorem named_ok_iff {d : Draft} :
    named cases d = .ok v ↔ ∃ name, d = .string (.ok name) ∧ cases.lookup name = some v := by
  cases d with
  | string s =>
    cases s with
    | error f => simp [named]
    | ok name => simp [named, Reader.caseOf_ok_iff]
  | _ => simp [named]

theorem split_tag {d : Draft} {rest : Members} {found : Option (Variant α)}
    {r : Variant α × Members} :
    split tag depth cases (.cons (.ok tag) d rest) found = .ok r ↔
      found = none ∧ ∃ v, named cases d = .ok v ∧ split tag depth cases rest (some v) = .ok r := by
  cases found with
  | some w => simp [split, Except.mapError, bind, Except.bind]
  | none =>
    have hstep : split tag depth cases (.cons (.ok tag) d rest) none =
        named cases d >>= fun v => split tag depth cases rest (some v) := by
      simp [split, Except.mapError, bind, Except.bind]
    rw [hstep, bind_ok_iff]
    simp

theorem split_other {key : String} {d : Draft} {rest others : Members}
    {found : Option (Variant α)} (h : key ≠ tag) :
    split tag depth cases (.cons (.ok key) d rest) found = .ok (v, others) ↔
      d.sound? depth = none ∧ ∃ more, split tag depth cases rest found = .ok (v, more) ∧
        others = .cons (.ok key) d more := by
  have hstep : split tag depth cases (.cons (.ok key) d rest) found =
      unlessFlaw (d.sound? depth) >>= fun _ => split tag depth cases rest found >>= fun r =>
        .ok (r.1, .cons (.ok key) d r.2) := by
    simp [split, Except.mapError, bind, Except.bind, h]
  rw [hstep, bind_ok_iff]
  constructor
  · rintro ⟨u, hu, hrest⟩
    obtain ⟨⟨w, more⟩, hmore, heq⟩ := bind_ok_iff.1 hrest
    cases heq
    exact ⟨unlessFlaw_ok_iff.1 hu, more, hmore, rfl⟩
  · rintro ⟨hsound, more, hmore, rfl⟩
    exact ⟨(), unlessFlaw_ok_iff.2 hsound, bind_ok_iff.2 ⟨(v, more), hmore, rfl⟩⟩

/-- What is left to find is the tag, if it has not been found yet. -/
theorem split_ok_iff {found : Option (Variant α)} {rest : Members} :
    split tag depth cases (.closed ms) found = .ok (v, rest) ↔
      SoundBeside tag depth ms ∧ rest = .closed (others tag ms) ∧
        (valuesOf tag ms = [] ∧ found = some v ∨ found = none ∧
          ∃ name, valuesOf tag ms = [.string (.ok name)] ∧ cases.lookup name = some v) := by
  induction ms generalizing found rest with
  | nil =>
    cases found with
    | none => simp [Members.closed, split, SoundBeside, Ending.memberFlaw?, unlessFlaw, bind,
        Except.bind]
    | some w =>
      simp [Members.closed, split, SoundBeside, Ending.memberFlaw?, unlessFlaw, bind,
        Except.bind, and_comm, eq_comm]
  | cons m ms ih =>
    obtain ⟨key, d⟩ := m
    cases key with
    | error f =>
      constructor
      · intro h
        cases h
      · rintro ⟨hsound, -⟩
        obtain ⟨key, hkey, -⟩ := hsound _ (List.mem_cons_self ..)
        cases hkey
    | ok key =>
      rw [soundBeside_cons, others_cons, valuesOf_cons, Members.closed]
      by_cases htag : key = tag
      · subst htag
        rw [split_tag, if_pos rfl, if_pos rfl]
        constructor
        · rintro ⟨rfl, w, hw, hrest⟩
          obtain ⟨hsound, rfl, ⟨hnil, hv⟩ | ⟨hnone, -⟩⟩ := ih.1 hrest
          · cases hv
            obtain ⟨name, rfl, hname⟩ := named_ok_iff.1 hw
            exact ⟨⟨by simp, hsound⟩, rfl, .inr ⟨rfl, name, by rw [hnil], hname⟩⟩
          · cases hnone
        · rintro ⟨⟨-, hsound⟩, rfl, ⟨hnil, -⟩ | ⟨rfl, name, hname, hlookup⟩⟩
          · cases hnil
          · injection hname with hd hnil
            exact ⟨rfl, v, named_ok_iff.2 ⟨name, hd, hlookup⟩,
              ih.2 ⟨hsound, rfl, .inl ⟨hnil, rfl⟩⟩⟩
      · rw [split_other htag, if_neg htag, if_neg htag]
        constructor
        · rintro ⟨hd, more, hmore, rfl⟩
          obtain ⟨hsound, rfl, hfound⟩ := ih.1 hmore
          exact ⟨⟨fun _ => hd, hsound⟩, rfl, hfound⟩
        · rintro ⟨⟨hd, hsound⟩, rfl, hfound⟩
          exact ⟨hd htag, _, ih.2 ⟨hsound, rfl, hfound⟩, rfl⟩

theorem read_object_iff :
    Variant.read tag expected depth cases (.objectOf ms) = .ok a ↔
      ∃ name v, valuesOf tag ms = [.string (.ok name)] ∧ cases.lookup name = some v ∧
        SoundBeside tag depth ms ∧ v (.members (.closed (others tag ms))) = .ok a := by
  have hstep : Variant.read tag expected depth cases (.objectOf ms) =
      split tag depth cases (.closed ms) none >>= fun r => r.1 (.members r.2) := rfl
  rw [hstep, bind_ok_iff]
  constructor
  · rintro ⟨⟨v, rest⟩, hsplit, hv⟩
    obtain ⟨hsound, rfl, ⟨-, hnone⟩ | ⟨-, name, hname, hlookup⟩⟩ := split_ok_iff.1 hsplit
    · cases hnone
    · exact ⟨name, v, hname, hlookup, hsound, hv⟩
  · rintro ⟨name, v, hname, hlookup, hsound, hv⟩
    exact ⟨(v, .closed (others tag ms)),
      split_ok_iff.2 ⟨hsound, rfl, .inr ⟨rfl, name, hname, hlookup⟩⟩, hv⟩

theorem read_array_iff {vs : List Draft} :
    Variant.read tag expected depth cases (.arrayOf vs) = .ok a ↔
      ∃ name v rest, vs = .string (.ok name) :: rest ∧ cases.lookup name = some v ∧
        (∀ w ∈ rest, w.sound? depth = none) ∧ v (.items (.closed rest)) = .ok a := by
  cases vs with
  | nil =>
    constructor
    · intro h
      cases h
    · rintro ⟨name, v, rest, hnil, -⟩
      cases hnil
  | cons first rest =>
    have hstep : Variant.read tag expected depth cases (.arrayOf (first :: rest)) =
        named cases first >>= fun v => unlessFlaw ((Items.closed rest).sound? depth) >>= fun _ =>
          v (.items (.closed rest)) := rfl
    rw [hstep, bind_ok_iff]
    constructor
    · rintro ⟨v, hnamed, h⟩
      obtain ⟨u, hu, hv⟩ := bind_ok_iff.1 h
      obtain ⟨name, rfl, hlookup⟩ := named_ok_iff.1 hnamed
      exact ⟨name, v, rest, rfl, hlookup, Items.sound?_closed.1 (unlessFlaw_ok_iff.1 hu), hv⟩
    · rintro ⟨name, v, more, hcons, hlookup, hsound, hv⟩
      cases hcons
      exact ⟨v, named_ok_iff.2 ⟨name, rfl, hlookup⟩, bind_ok_iff.2
        ⟨(), unlessFlaw_ok_iff.2 (Items.sound?_closed.2 hsound), hv⟩⟩

end Variant

end Shading.Json
