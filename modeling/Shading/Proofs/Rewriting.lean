/-
  Rewriting a text without changing what is read from it.

  A `Shape` says what a reader wants at a place: the fields of a record with
  their defaults, the cases of a tagged record, the elements of a list, or
  nothing that it looks at.  `Step` is one rewriting that the shape allows,
  anywhere in a value.  A reader respects a shape if it reads the same from the
  rewritten value; records do so because each field does
  (`Record.Respects.field`), whatever happens to the others.
-/
import Mathlib.Data.List.Nodup
import Mathlib.Logic.Relation
import Shading.Proofs.Rendering
import Shading.Proofs.Variants

namespace Shading.Json

/-! ## Shapes -/

mutual

/-- What a reader wants: a value that is read as a whole, a list, a record, a
    tagged record, or whatever stands there. -/
inductive Shape where
  | atom
  | list (item : Shape)
  | record (fields : List FieldShape)
  | tagged (tag : String) (cases : List (String × List FieldShape))
  | ignored

/-- A field: its name, the shape of its value, and a value that stands for a
    field that is not there. -/
structure FieldShape where
  name : String
  shape : Shape
  absent : Option Draft

end

/-- The shape of the value of a member. -/
def shapeOf (fields : List FieldShape) : Quoted → Shape
  | .ok key => ((fields.find? (·.name == key)).map (·.shape)).getD .ignored
  | .error _ => .ignored

namespace Shape

/-- The fields of a case of a tagged record, with the tag in front. -/
def caseFields (tag : String) (cases : List (String × List FieldShape)) (name : String) :
    Option (List FieldShape) :=
  (cases.lookup name).map (⟨tag, .atom, none⟩ :: ·)

/-- The fields that a reader looks for among the members of an object. -/
def fieldsOf (ms : List (Quoted × Draft)) : Shape → Option (List FieldShape)
  | record fields => some fields
  | tagged tag cases =>
    match valuesOf tag ms with
    | [.string (.ok name)] => caseFields tag cases name
    | _ => none
  | ignored => some []
  | atom | list _ => none

/-- The fields that a reader looks for in the elements of an array. -/
def fieldsAt (vs : List Draft) : Shape → Option (List FieldShape)
  | record fields => some fields
  | tagged tag cases =>
    match vs with
    | .string (.ok name) :: _ => caseFields tag cases name
    | _ => none
  | ignored | atom | list _ => none

/-- The shape of an element of an array. -/
def shapeAt (vs : List Draft) (i : Nat) (s : Shape) : Option Shape :=
  match s with
  | list item => some item
  | ignored => some .ignored
  | s => (s.fieldsAt vs).bind fun fields => fields[i]?.map (·.shape)

end Shape

/-! ## Steps -/

mutual

/-- A value can stand where `room` brackets may still be opened: its numbers
    are in the range of double precision and it is not nested deeper. -/
def fits (room : Nat) : Json → Bool
  | .null | .bool _ | .string _ => true
  | .number n => n.inRange
  | .array items => 0 < room && fitsItems (room - 1) items
  | .object members => 0 < room && fitsMembers (room - 1) members

@[inherit_doc fits]
def fitsItems (room : Nat) : List Json → Bool
  | [] => true
  | v :: rest => v.fits room && fitsItems room rest

@[inherit_doc fits]
def fitsMembers (room : Nat) : List (String × Json) → Bool
  | [] => true
  | (_, v) :: rest => v.fits room && fitsMembers room rest

end

/-- The values of the fields in their order; fields at the end may be left
    out. -/
def Lists (fields : List FieldShape) (ms : List (Quoted × Draft)) (vs : List Draft) : Prop :=
  vs.length ≤ fields.length ∧
    ∀ (i : Nat) (f : FieldShape), fields[i]? = some f → valuesOf f.name ms = vs[i]?.toList

/-- One rewriting of a value in which `room` brackets may be open.  What
    happens to a member happens to the first one: with `permute` that is any
    of them. -/
inductive Step : Nat → Shape → Draft → Draft → Prop
  | permute {room : Nat} {s : Shape} {ms ms' : List (Quoted × Draft)} :
      ms.Perm ms' → Step room s (.objectOf ms) (.objectOf ms')
  | insert {room : Nat} {s : Shape} {ms : List (Quoted × Draft)} {fields : List FieldShape}
      {key : String} {v : Json} :
      s.fieldsOf ms = some fields → key ∉ fields.map (·.name) → v.fits (room - 1) = true →
      Step room s (.objectOf ms) (.objectOf ((.ok key, .ofJson v) :: ms))
  | fill {room : Nat} {s : Shape} {ms : List (Quoted × Draft)} {fields : List FieldShape}
      {f : FieldShape} {v : Draft} :
      s.fieldsOf ms = some fields → f ∈ fields → f.absent = some v → valuesOf f.name ms = [] →
      Step room s (.objectOf ms) (.objectOf ((.ok f.name, v) :: ms))
  | drop {room : Nat} {s : Shape} {ms : List (Quoted × Draft)} {fields : List FieldShape}
      {f : FieldShape} {v : Draft} :
      s.fieldsOf ((.ok f.name, v) :: ms) = some fields → f ∈ fields → f.absent = some v →
      Step room s (.objectOf ((.ok f.name, v) :: ms)) (.objectOf ms)
  | member {room : Nat} {s : Shape} {ms : List (Quoted × Draft)} {fields : List FieldShape}
      {key : Quoted} {v v' : Draft} :
      s.fieldsOf ((key, v) :: ms) = some fields → Step (room - 1) (shapeOf fields key) v v' →
      Step room s (.objectOf ((key, v) :: ms)) (.objectOf ((key, v') :: ms))
  | asArray {room : Nat} {s : Shape} {ms : List (Quoted × Draft)} {fields : List FieldShape}
      {vs : List Draft} :
      s ≠ .ignored → s.fieldsOf ms = some fields → Lists fields ms vs →
      Step room s (.objectOf ms) (.arrayOf vs)
  | fillLast {room : Nat} {s : Shape} {vs : List Draft} {fields : List FieldShape}
      {f : FieldShape} {v : Draft} :
      s.fieldsAt vs = some fields → fields[vs.length]? = some f → f.absent = some v →
      Step room s (.arrayOf vs) (.arrayOf (vs ++ [v]))
  | dropLast {room : Nat} {s : Shape} {vs : List Draft} {fields : List FieldShape}
      {f : FieldShape} {v : Draft} :
      s.fieldsAt (vs ++ [v]) = some fields → fields[vs.length]? = some f → f.absent = some v →
      Step room s (.arrayOf (vs ++ [v])) (.arrayOf vs)
  | element {room : Nat} {s t : Shape} {vs ws : List Draft} {v v' : Draft} :
      s.shapeAt (vs ++ v :: ws) vs.length = some t → Step (room - 1) t v v' →
      Step room s (.arrayOf (vs ++ v :: ws)) (.arrayOf (vs ++ v' :: ws))

/-! ## What a step does to the fields -/

theorem Members.closed_inj {ms ns : List (Quoted × Draft)} (h : Members.closed ms = .closed ns) :
    ms = ns := by
  induction ms generalizing ns with
  | nil =>
    cases ns with
    | nil => rfl
    | cons n ns => cases h
  | cons m ms ih =>
    cases ns with
    | nil => cases h
    | cons n ns =>
      obtain ⟨name, v⟩ := m
      obtain ⟨name', v'⟩ := n
      injection h with hname hv hrest
      rw [hname, hv, ih hrest]

theorem Items.closed_inj {vs ws : List Draft} (h : Items.closed vs = .closed ws) : vs = ws := by
  induction vs generalizing ws with
  | nil =>
    cases ws with
    | nil => rfl
    | cons w ws => cases h
  | cons v vs ih =>
    cases ws with
    | nil => cases h
    | cons w ws =>
      injection h with hv hrest
      rw [hv, ih hrest]

theorem Draft.objectOf_inj {ms ns : List (Quoted × Draft)}
    (h : Draft.objectOf ms = .objectOf ns) : ms = ns := by
  injection h with h
  exact Members.closed_inj h

theorem Draft.arrayOf_inj {vs ws : List Draft} (h : Draft.arrayOf vs = .arrayOf ws) : vs = ws := by
  injection h with h
  exact Items.closed_inj h

theorem Members.ending_closed (ms : List (Quoted × Draft)) :
    (Members.closed ms).ending = .closed := by
  induction ms with
  | nil => rfl
  | cons m ms ih => exact ih

theorem Items.ending_closed (vs : List Draft) : (Items.closed vs).ending = .closed := by
  induction vs with
  | nil => rfl
  | cons v vs ih => exact ih

theorem Step.skip? {room : Nat} {s : Shape} {d d' : Draft} (h : Step room s d d') :
    d'.skip? = none := by
  cases h with
  | permute | insert | fill | drop | member => exact Draft.skip?_object (Members.ending_closed _)
  | asArray | fillLast | dropLast | element => exact Draft.skip?_array (Items.ending_closed _)

/-- Only objects and arrays are rewritten. -/
theorem Step.source {room : Nat} {s : Shape} {d d' : Draft} (h : Step room s d d') :
    (∃ ms, d = .objectOf ms) ∨ ∃ vs, d = .arrayOf vs := by
  cases h with
  | permute | insert | fill | drop | member | asArray => exact .inl ⟨_, rfl⟩
  | fillLast | dropLast | element => exact .inr ⟨_, rfl⟩

/-- What one rewriting does to the values of a field. -/
inductive FieldStep (room : Nat) (f : FieldShape) : List Draft → List Draft → Prop
  | permute {xs ys : List Draft} : xs.Perm ys → FieldStep room f xs ys
  | fill {v : Draft} : f.absent = some v → FieldStep room f [] [v]
  | drop {v : Draft} {xs : List Draft} : f.absent = some v → FieldStep room f (v :: xs) xs
  | inner {v v' : Draft} {xs : List Draft} :
      Step room f.shape v v' → FieldStep room f (v :: xs) (v' :: xs)

/-- A member that was not there before a rewriting. -/
inductive NewMember (room : Nat) (fields : List FieldShape) (ms : List (Quoted × Draft)) :
    Quoted × Draft → Prop
  | inserted {key : String} {v : Json} :
      v.fits room = true → NewMember room fields ms (.ok key, .ofJson v)
  | filled {f : FieldShape} {v : Draft} :
      f ∈ fields → f.absent = some v → NewMember room fields ms (.ok f.name, v)
  | changed {key : Quoted} {v v' : Draft} :
      (key, v) ∈ ms → Step room (shapeOf fields key) v v' → NewMember room fields ms (key, v')

/-- What one rewriting does to the members of an object. -/
structure MembersStep (room : Nat) (fields : List FieldShape) (ms ms' : List (Quoted × Draft)) :
    Prop where
  values : ∀ f ∈ fields, FieldStep room f (valuesOf f.name ms) (valuesOf f.name ms')
  members : ∀ m ∈ ms', m ∈ ms ∨ NewMember room fields ms m

/-- What one rewriting does to the elements of an array. -/
structure ItemsStep (room : Nat) (fields : List FieldShape) (vs vs' : List Draft) : Prop where
  values : ∀ (i : Nat) (f : FieldShape), fields[i]? = some f →
    FieldStep room f vs[i]?.toList vs'[i]?.toList
  length : vs.length ≤ fields.length → vs'.length ≤ fields.length

section Members

variable {room : Nat} {fields : List FieldShape} {ms ms' : List (Quoted × Draft)}

theorem FieldStep.refl (f : FieldShape) (xs : List Draft) : FieldStep room f xs xs :=
  .permute (List.Perm.refl xs)

theorem mem_valuesOf {name : String} {v : Draft} : v ∈ valuesOf name ms ↔ (.ok name, v) ∈ ms := by
  rw [valuesOf, List.mem_filterMap]
  constructor
  · rintro ⟨⟨key, w⟩, hm, heq⟩
    cases key with
    | error f => cases heq
    | ok key =>
      by_cases hkey : key = name
      · simp only [hkey, if_true, Option.some.injEq] at heq
        rw [← hkey, ← heq]
        exact hm
      · simp [hkey] at heq
  · intro hm
    exact ⟨_, hm, by simp⟩

theorem shapeOf_eq (hnodup : (fields.map (·.name)).Nodup) {f : FieldShape} (hf : f ∈ fields) :
    shapeOf fields (.ok f.name) = f.shape := by
  cases hfind : fields.find? (·.name == f.name) with
  | none =>
    have := List.find?_eq_none.1 hfind f hf
    simp at this
  | some g =>
    have hname : g.name = f.name := by simpa using List.find?_some hfind
    have hg : g = f :=
      List.inj_on_of_nodup_map hnodup (List.mem_of_find?_eq_some hfind) hf hname
    rw [shapeOf, hfind, hg]
    rfl

namespace MembersStep

theorem permute (h : ms.Perm ms') : MembersStep room fields ms ms' where
  values _ _ := .permute (h.filterMap _)
  members _ hm := .inl (h.mem_iff.2 hm)

theorem insert {key : String} {v : Json} (hkey : key ∉ fields.map (·.name))
    (hv : v.fits room = true) : MembersStep room fields ms ((.ok key, .ofJson v) :: ms) where
  values f hf := by
    have hne : key ≠ f.name := by
      rintro rfl
      exact hkey (List.mem_map_of_mem hf)
    rw [valuesOf_cons, if_neg hne]
    exact .refl f _
  members m hm := by
    rcases List.mem_cons.1 hm with rfl | hm
    · exact .inr (.inserted hv)
    · exact .inl hm

theorem fill (hnodup : (fields.map (·.name)).Nodup) {f : FieldShape} {v : Draft} (hf : f ∈ fields)
    (hv : f.absent = some v) (hnil : valuesOf f.name ms = []) :
    MembersStep room fields ms ((.ok f.name, v) :: ms) where
  values g hg := by
    rw [valuesOf_cons]
    by_cases hname : f.name = g.name
    · obtain rfl : f = g := List.inj_on_of_nodup_map hnodup hf hg hname
      rw [if_pos rfl, hnil]
      exact .fill hv
    · rw [if_neg hname]
      exact .refl g _
  members m hm := by
    rcases List.mem_cons.1 hm with rfl | hm
    · exact .inr (.filled hf hv)
    · exact .inl hm

theorem drop (hnodup : (fields.map (·.name)).Nodup) {f : FieldShape} {v : Draft} (hf : f ∈ fields)
    (hv : f.absent = some v) : MembersStep room fields ((.ok f.name, v) :: ms) ms where
  values g hg := by
    rw [valuesOf_cons]
    by_cases hname : f.name = g.name
    · obtain rfl : f = g := List.inj_on_of_nodup_map hnodup hf hg hname
      rw [if_pos rfl]
      exact .drop hv
    · rw [if_neg hname]
      exact .refl g _
  members _ hm := .inl (List.mem_cons_of_mem _ hm)

theorem member (hnodup : (fields.map (·.name)).Nodup) {key : Quoted} {v v' : Draft}
    (hstep : Step room (shapeOf fields key) v v') :
    MembersStep room fields ((key, v) :: ms) ((key, v') :: ms) where
  values f hf := by
    cases key with
    | error flaw => exact .refl f _
    | ok key =>
      rw [valuesOf_cons, valuesOf_cons]
      by_cases hname : key = f.name
      · rw [if_pos hname, if_pos hname]
        rw [hname, shapeOf_eq hnodup hf] at hstep
        exact .inner hstep
      · rw [if_neg hname, if_neg hname]
        exact .refl f _
  members m hm := by
    rcases List.mem_cons.1 hm with rfl | hm
    · exact .inr (.changed (List.mem_cons_self ..) hstep)
    · exact .inl (List.mem_cons_of_mem _ hm)

end MembersStep

/-- An object is rewritten member by member, or as an array. -/
theorem Step.of_object {s : Shape} {d : Draft} (h : Step room s (.objectOf ms) d)
    (hfields : s.fieldsOf ms = some fields) (hnodup : (fields.map (·.name)).Nodup) :
    (∃ ms', d = .objectOf ms' ∧ MembersStep (room - 1) fields ms ms') ∨
      ∃ vs, d = .arrayOf vs ∧ Lists fields ms vs := by
  generalize hd : Draft.objectOf ms = e at h
  cases h with
  | permute hperm =>
    obtain rfl := Draft.objectOf_inj hd
    exact .inl ⟨_, rfl, .permute hperm⟩
  | insert hf hkey hv =>
    obtain rfl := Draft.objectOf_inj hd
    obtain rfl := Option.some.inj (hf.symm.trans hfields)
    exact .inl ⟨_, rfl, .insert hkey hv⟩
  | fill hf hmem hv hnil =>
    obtain rfl := Draft.objectOf_inj hd
    obtain rfl := Option.some.inj (hf.symm.trans hfields)
    exact .inl ⟨_, rfl, .fill hnodup hmem hv hnil⟩
  | drop hf hmem hv =>
    obtain rfl := Draft.objectOf_inj hd
    obtain rfl := Option.some.inj (hf.symm.trans hfields)
    exact .inl ⟨_, rfl, .drop hnodup hmem hv⟩
  | member hf hstep =>
    obtain rfl := Draft.objectOf_inj hd
    obtain rfl := Option.some.inj (hf.symm.trans hfields)
    exact .inl ⟨_, rfl, .member hnodup hstep⟩
  | asArray _ hf hlists =>
    obtain rfl := Draft.objectOf_inj hd
    obtain rfl := Option.some.inj (hf.symm.trans hfields)
    exact .inr ⟨_, rfl, hlists⟩
  | fillLast | dropLast | element => cases hd

end Members

section Items

variable {room : Nat} {fields : List FieldShape} {vs ws : List Draft} {v v' : Draft}

theorem getElem?_middle {i : Nat} (h : i ≠ vs.length) :
    (vs ++ v :: ws)[i]? = (vs ++ v' :: ws)[i]? := by
  rcases Nat.lt_or_gt_of_ne h with hlt | hgt
  · rw [List.getElem?_append_left hlt, List.getElem?_append_left hlt]
  · obtain ⟨n, rfl⟩ : ∃ n, i = vs.length + (n + 1) := ⟨i - vs.length - 1, by omega⟩
    rw [List.getElem?_append_right (by omega), List.getElem?_append_right (by omega),
      Nat.add_sub_cancel_left, List.getElem?_cons_succ, List.getElem?_cons_succ]

/-- A value put last is the only one in its place, and the others stay where
    they are. -/
theorem getElem?_end (vs : List Draft) (v : Draft) (i : Nat) :
    (i = vs.length ∧ vs[i]? = none ∧ (vs ++ [v])[i]? = some v) ∨ (vs ++ [v])[i]? = vs[i]? := by
  rcases Nat.lt_trichotomy i vs.length with hlt | rfl | hgt
  · exact .inr (List.getElem?_append_left hlt)
  · exact .inl ⟨rfl, List.getElem?_eq_none (Nat.le_refl _), List.getElem?_concat_length⟩
  · right
    rw [List.getElem?_eq_none (by simp; omega), List.getElem?_eq_none (by omega)]

namespace ItemsStep

theorem element {f : FieldShape} (hf : fields[vs.length]? = some f)
    (hstep : Step room f.shape v v') :
    ItemsStep room fields (vs ++ v :: ws) (vs ++ v' :: ws) where
  values i g hg := by
    by_cases hi : i = vs.length
    · subst hi
      obtain rfl := Option.some.inj (hf.symm.trans hg)
      simp only [List.getElem?_append_right (Nat.le_refl _), Nat.sub_self, List.getElem?_cons_zero]
      exact .inner hstep
    · rw [getElem?_middle hi]
      exact .refl g _
  length h := by simpa using h

theorem fillLast {f : FieldShape} (hf : fields[vs.length]? = some f) (hv : f.absent = some v) :
    ItemsStep room fields vs (vs ++ [v]) where
  values i g hg := by
    rcases getElem?_end vs v i with ⟨rfl, hnone, hsome⟩ | hsame
    · obtain rfl := Option.some.inj (hf.symm.trans hg)
      rw [hnone, hsome]
      exact .fill hv
    · rw [hsame]
      exact .refl g _
  length _ := by
    obtain ⟨hlt, -⟩ := List.getElem?_eq_some_iff.1 hf
    rw [List.length_append]
    exact hlt

theorem dropLast {f : FieldShape} (hf : fields[vs.length]? = some f) (hv : f.absent = some v) :
    ItemsStep room fields (vs ++ [v]) vs where
  values i g hg := by
    rcases getElem?_end vs v i with ⟨rfl, hnone, hsome⟩ | hsame
    · obtain rfl := Option.some.inj (hf.symm.trans hg)
      rw [hnone, hsome]
      exact .drop hv
    · rw [hsame]
      exact .refl g _
  length h := by
    rw [List.length_append] at h
    omega

end ItemsStep

theorem Shape.shapeAt_eq {s : Shape} (h : s.fieldsAt vs = some fields) (i : Nat) :
    s.shapeAt vs i = fields[i]?.map (·.shape) := by
  cases s with
  | record fields' =>
    cases h
    rfl
  | tagged tag cases => simp [shapeAt, h]
  | atom | list _ | ignored => cases h

/-- An array is rewritten element by element. -/
theorem Step.of_array {s : Shape} {d : Draft} (h : Step room s (.arrayOf vs) d)
    (hfields : s.fieldsAt vs = some fields) :
    ∃ vs', d = .arrayOf vs' ∧ ItemsStep (room - 1) fields vs vs' := by
  generalize hd : Draft.arrayOf vs = e at h
  cases h with
  | permute | insert | fill | drop | member | asArray => cases hd
  | fillLast hf hlast hv =>
    obtain rfl := Draft.arrayOf_inj hd
    obtain rfl := Option.some.inj (hf.symm.trans hfields)
    exact ⟨_, rfl, .fillLast hlast hv⟩
  | dropLast hf hlast hv =>
    obtain rfl := Draft.arrayOf_inj hd
    obtain rfl := Option.some.inj (hf.symm.trans hfields)
    exact ⟨_, rfl, .dropLast hlast hv⟩
  | element hshape hstep =>
    obtain rfl := Draft.arrayOf_inj hd
    rw [Shape.shapeAt_eq hfields, Option.map_eq_some_iff] at hshape
    obtain ⟨f, hf, rfl⟩ := hshape
    exact ⟨_, rfl, .element hf hstep⟩

end Items

/-! ## Readers that respect a shape -/

/-- The reader reads the same after a rewriting. -/
def Reader.Respects {α : Type} (r : Reader α) (room : Nat) (s : Shape) : Prop :=
  ∀ d d' a, Step room s d d' → r d = .ok a → r d' = .ok a

section Fields

variable {α β : Type} {room : Nat} {fields : List FieldShape} {ms : List (Quoted × Draft)}

/-- A field is read from its values: the only one, or none if it may be
    absent. -/
def FieldReads (r : Reader α) (absent : Option α) (xs : List Draft) (a : α) : Prop :=
  xs = [] ∧ absent = some a ∨ ∃ v, xs = [v] ∧ r v = .ok a

theorem FieldStep.reads {f : FieldShape} {xs ys : List Draft} (h : FieldStep room f xs ys)
    {r : Reader α} {absent : Option α} (hr : r.Respects room f.shape)
    (habsent : ∀ v, f.absent = some v → ∃ b, absent = some b ∧ r v = .ok b) {a : α}
    (hread : FieldReads r absent xs a) : FieldReads r absent ys a := by
  cases h with
  | permute hperm =>
    rcases hread with ⟨rfl, ha⟩ | ⟨v, rfl, ha⟩
    · exact .inl ⟨hperm.nil_eq.symm, ha⟩
    · exact .inr ⟨v, hperm.singleton_eq.symm, ha⟩
  | fill hv =>
    obtain ⟨b, hb, hread'⟩ := habsent _ hv
    rcases hread with ⟨-, ha⟩ | ⟨w, hw, -⟩
    · obtain rfl := Option.some.inj (ha.symm.trans hb)
      exact .inr ⟨_, rfl, hread'⟩
    · cases hw
  | drop hv =>
    obtain ⟨b, hb, hread'⟩ := habsent _ hv
    rcases hread with ⟨hnil, -⟩ | ⟨w, hw, ha⟩
    · cases hnil
    · cases hw
      obtain rfl := Except.ok.inj (hread'.symm.trans ha)
      exact .inl ⟨rfl, hb⟩
  | inner hstep =>
    rcases hread with ⟨hnil, -⟩ | ⟨w, hw, ha⟩
    · cases hnil
    · cases hw
      exact .inr ⟨_, rfl, hr _ _ _ hstep ha⟩

theorem toList_head? {xs : List Draft} (h : xs.length ≤ 1) : xs[0]?.toList = xs := by
  cases xs with
  | nil => rfl
  | cons x xs =>
    cases xs with
    | nil => rfl
    | cons y ys =>
      simp only [List.length_cons] at h
      omega

namespace ItemsStep

variable {fields' : List FieldShape} {vs vs' : List Draft}

theorem take (h : ItemsStep room (fields ++ fields') vs vs') :
    ItemsStep room fields (vs.take fields.length) (vs'.take fields.length) where
  values i f hf := by
    obtain ⟨hi, -⟩ := List.getElem?_eq_some_iff.1 hf
    rw [List.getElem?_take_of_lt hi, List.getElem?_take_of_lt hi]
    exact h.values i f (by rw [List.getElem?_append_left hi, hf])
  length _ := List.length_take_le ..

theorem drop (h : ItemsStep room (fields ++ fields') vs vs') :
    ItemsStep room fields' (vs.drop fields.length) (vs'.drop fields.length) where
  values i f hf := by
    rw [List.getElem?_drop, List.getElem?_drop]
    refine h.values _ f ?_
    rw [List.getElem?_append_right (by omega), Nat.add_sub_cancel_left, hf]
  length hlength := by
    have := h.length
    simp only [List.length_append, List.length_drop] at this hlength ⊢
    omega

end ItemsStep

theorem Lists.take {fields' : List FieldShape} {vs : List Draft}
    (h : Lists (fields ++ fields') ms vs) : Lists fields ms (vs.take fields.length) := by
  refine ⟨List.length_take_le .., fun i f hf => ?_⟩
  obtain ⟨hi, -⟩ := List.getElem?_eq_some_iff.1 hf
  rw [List.getElem?_take_of_lt hi]
  exact h.2 i f (by rw [List.getElem?_append_left hi, hf])

theorem Lists.drop {fields' : List FieldShape} {vs : List Draft}
    (h : Lists (fields ++ fields') ms vs) : Lists fields' ms (vs.drop fields.length) := by
  obtain ⟨hlength, hvalues⟩ := h
  refine ⟨?_, fun i f hf => ?_⟩
  · simp only [List.length_append, List.length_drop] at hlength ⊢
    omega
  · rw [List.getElem?_drop]
    refine hvalues _ f ?_
    rw [List.getElem?_append_right (by omega), Nat.add_sub_cancel_left, hf]

/-- The record is read from the same fields after a rewriting: from the members
    of an object, from the elements of an array, and from the array that lists
    the members of an object. -/
structure Record.Respects (p : Record α) (room : Nat) (fields : List FieldShape) : Prop where
  lawful : p.Lawful
  names : p.names = fields.map (·.name)
  defaults : ∀ f ∈ fields, ∀ v, f.absent = some v → v.skip? = none
  passable : ∀ ms a, p.Reads ms a → Passable [] ms
  length : ∀ vs a, p.Takes vs a → vs.length ≤ fields.length
  members : ∀ ms ms' a,
    (∀ f ∈ fields, FieldStep room f (valuesOf f.name ms) (valuesOf f.name ms')) →
      Passable [] ms' → p.Reads ms a → p.Reads ms' a
  items : ∀ vs vs' a, ItemsStep room fields vs vs' → p.Takes vs a → p.Takes vs' a
  listed : ∀ ms vs a, Lists fields ms vs → p.Reads ms a → p.Takes vs a

theorem Record.respects_const (a : α) (room : Nat) : (Record.const a).Respects room [] where
  lawful := inferInstance
  names := rfl
  defaults f hf := by cases hf
  passable ms b h := (reads_const.1 h).1
  length vs b h := by
    obtain ⟨rfl, -⟩ := takes_const.1 h
    exact Nat.le_refl _
  members ms ms' b _ hpass h := reads_const.2 ⟨hpass, (reads_const.1 h).2⟩
  items vs vs' b hstep h := by
    obtain ⟨rfl, hab⟩ := takes_const.1 h
    have hlength := hstep.length (Nat.le_refl _)
    exact takes_const.2 ⟨List.eq_nil_of_length_eq_zero (Nat.le_zero.1 hlength), hab⟩
  listed ms vs b hlists h :=
    takes_const.2 ⟨List.eq_nil_of_length_eq_zero (Nat.le_zero.1 hlists.1), (reads_const.1 h).2⟩

theorem Passable.mono {names : List String} (h : Passable [] ms) : Passable names ms := by
  intro m hm
  obtain ⟨key, hkey, hskip⟩ := h m hm
  exact ⟨key, hkey, fun _ => hskip (by simp)⟩

theorem Record.length_le_of_takes {name : String} {r : Reader α} {absent : Option α}
    {vs : List Draft} {a : α} (h : (fieldOr name r absent).Takes vs a) : vs.length ≤ 1 := by
  rcases takes_fieldOr.1 h with ⟨rfl, -⟩ | ⟨v, rfl, -⟩
  · exact Nat.zero_le 1
  · exact Nat.le_refl 1

/-- One more field. -/
theorem Record.Respects.field {p : Record (α → β)} (h : p.Respects room fields)
    {r : Reader α} [hstrict : r.Strict] {absent : Option α} {f : FieldShape}
    (hname : f.name ∉ p.names) (hr : r.Respects room f.shape)
    (habsent : ∀ v, f.absent = some v → ∃ b, absent = some b ∧ r v = .ok b) :
    (p.apply (fieldOr f.name r absent)).Respects room (fields ++ [f]) := by
  have hlawful := h.lawful
  have hne : ∀ key ∈ p.names, key ∉ (fieldOr f.name r absent).names := by
    intro key hkey hmem
    obtain rfl : key = f.name := List.mem_singleton.1 hmem
    exact hname hkey
  have hlength : p.names.length = fields.length := by rw [h.names, List.length_map]
  refine ⟨inferInstance, ?_, ?_, ?_, ?_, ?_, ?_, ?_⟩
  · rw [names_apply, h.names, names_fieldOr, List.map_append]
    rfl
  · intro g hg v hv
    rcases List.mem_append.1 hg with hg | hg
    · exact h.defaults g hg v hv
    · obtain rfl := List.mem_singleton.1 hg
      obtain ⟨b, -, hb⟩ := habsent v hv
      exact hstrict.skips v b hb
  · intro ms b hb
    obtain ⟨g, a, hp, -, -⟩ := (reads_apply hne).1 hb
    exact h.passable ms g hp
  · intro vs b hb
    obtain ⟨g, a, hp, hq, -⟩ := takes_apply.1 hb
    have hdrop := length_le_of_takes hq
    rw [List.length_drop, hlength] at hdrop
    rw [List.length_append, List.length_singleton]
    omega
  · intro ms ms' b hvalues hpass hb
    obtain ⟨g, a, hp, hq, rfl⟩ := (reads_apply hne).1 hb
    have hp' := h.members ms ms' g (fun g hg => hvalues g (List.mem_append_left _ hg)) hpass hp
    have hf := hvalues f (List.mem_append_right _ (List.mem_singleton_self f))
    have hq' := reads_fieldOr.2 ⟨hpass.mono, hf.reads hr habsent (reads_fieldOr.1 hq).2⟩
    exact (reads_apply hne).2 ⟨g, a, hp', hq', rfl⟩
  · intro vs vs' b hstep hb
    obtain ⟨g, a, hp, hq, rfl⟩ := takes_apply.1 hb
    rw [hlength] at hp hq
    have hlast := hstep.drop
    have hlong := length_le_of_takes hq
    have hf := hlast.values 0 f rfl
    rw [toList_head? hlong, toList_head? (hlast.length hlong)] at hf
    refine takes_apply.2 ⟨g, a, ?_, ?_, rfl⟩
    · rw [hlength]
      exact h.items _ _ g hstep.take hp
    · rw [hlength]
      exact takes_fieldOr.2 (hf.reads hr habsent (takes_fieldOr.1 hq))
  · intro ms vs b hlists hb
    obtain ⟨g, a, hp, hq, rfl⟩ := (reads_apply hne).1 hb
    have hlast := hlists.drop
    have hf := hlast.2 0 f rfl
    rw [toList_head? hlast.1] at hf
    refine takes_apply.2 ⟨g, a, ?_, ?_, rfl⟩
    · rw [hlength]
      exact h.listed ms _ g hlists.take hp
    · rw [hlength, ← hf]
      exact takes_fieldOr.2 (reads_fieldOr.1 hq).2

/-- A field that has to be there, or for whose absence no value stands. -/
theorem Record.Respects.required {p : Record (α → β)} (h : p.Respects room fields)
    (name : String) (shape : Shape) {r : Reader α} [r.Strict] (absent : Option α)
    (hname : name ∉ p.names) (hr : r.Respects room shape) :
    (p.apply (fieldOr name r absent)).Respects room (fields ++ [⟨name, shape, none⟩]) :=
  h.field (f := ⟨name, shape, none⟩) hname hr (by intro v hv; cases hv)

/-- A field that has the value `a`, written as `v`, if it is not there. -/
theorem Record.Respects.optional {p : Record (α → β)} (h : p.Respects room fields)
    (name : String) (shape : Shape) {r : Reader α} [r.Strict] (v : Draft) (a : α)
    (hname : name ∉ p.names) (hr : r.Respects room shape) (hv : r v = .ok a) :
    (p.apply (fieldOr name r (some a))).Respects room (fields ++ [⟨name, shape, some v⟩]) := by
  refine h.field (f := ⟨name, shape, some v⟩) hname hr fun w hw => ?_
  cases hw
  exact ⟨a, rfl, hv⟩

theorem MembersStep.passable {ms' : List (Quoted × Draft)} (h : MembersStep room fields ms ms')
    (hdefaults : ∀ f ∈ fields, ∀ v, f.absent = some v → v.skip? = none)
    (hpass : Passable [] ms) : Passable [] ms' := by
  intro m hm
  rcases h.members m hm with hold | hnew
  · exact hpass m hold
  · cases hnew with
    | inserted => exact ⟨_, rfl, fun _ => Draft.skip?_of_isWhole _ (Draft.isWhole_ofJson _)⟩
    | filled hf hv => exact ⟨_, rfl, fun _ => hdefaults _ hf _ hv⟩
    | changed hold hstep =>
      obtain ⟨key, hkey, -⟩ := hpass _ hold
      exact ⟨key, hkey, fun _ => hstep.skip?⟩

theorem Record.Respects.read {p : Record α} (h : p.Respects (room - 1) fields)
    (hnodup : (fields.map (·.name)).Nodup) (expected : String) :
    Reader.Respects (p.read expected) room (.record fields) := by
  intro d d' a hstep hread
  have hlawful := h.lawful
  rcases hstep.source with ⟨ms, rfl⟩ | ⟨vs, rfl⟩
  · have hreads : p.Reads ms a := hread
    rcases hstep.of_object rfl hnodup with ⟨ms', rfl, hms⟩ | ⟨vs, rfl, hlists⟩
    · exact h.members ms ms' a hms.values (hms.passable h.defaults (h.passable ms a hreads)) hreads
    · exact (ofItems_iff _ _).2 (h.listed ms vs a hlists hreads)
  · have htakes : p.Takes vs a := (ofItems_iff _ _).1 hread
    obtain ⟨vs', rfl, hvs⟩ := hstep.of_array rfl
    exact (ofItems_iff _ _).2 (h.items vs vs' a hvs htakes)

end Fields

/-! ### Atoms and lists -/

theorem Step.of_atom {room : Nat} {d d' : Draft} (h : Step room .atom d d') :
    ∃ ms ms', d = .objectOf ms ∧ d' = .objectOf ms' ∧ ms.Perm ms' := by
  cases h with
  | permute hperm => exact ⟨_, _, rfl, rfl, hperm⟩
  | insert hf | fill hf | drop hf | member hf | fillLast hf | dropLast hf => cases hf
  | asArray _ hf => cases hf
  | element hshape => cases hshape

theorem Step.of_list {room : Nat} {s : Shape} {vs : List Draft} {d : Draft}
    (h : Step room (.list s) (.arrayOf vs) d) :
    ∃ us v v' ws, vs = us ++ v :: ws ∧ d = .arrayOf (us ++ v' :: ws) ∧ Step (room - 1) s v v' := by
  generalize he : Draft.arrayOf vs = e at h
  cases h with
  | permute => cases he
  | insert hf | fill hf | drop hf | member hf | fillLast hf | dropLast hf => cases hf
  | asArray _ hf => cases hf
  | element hshape hstep =>
    obtain rfl := Draft.arrayOf_inj he
    cases hshape
    exact ⟨_, _, _, _, rfl, rfl, hstep⟩

namespace Reader

variable {α : Type} {r : Reader α} {room : Nat} {s : Shape}

theorem respects_of_scalar (hobject : ∀ ms a, r (.objectOf ms) ≠ .ok a)
    (harray : ∀ vs a, r (.arrayOf vs) ≠ .ok a) : r.Respects room s := by
  intro d d' a hstep hread
  rcases hstep.source with ⟨ms, rfl⟩ | ⟨vs, rfl⟩
  · exact absurd hread (hobject ms a)
  · exact absurd hread (harray vs a)

theorem respects_string : Reader.string.Respects room s :=
  respects_of_scalar (by intro ms a h; cases h) (by intro vs a h; cases h)

theorem respects_bool : Reader.bool.Respects room s :=
  respects_of_scalar (by intro ms a h; cases h) (by intro vs a h; cases h)

theorem respects_single : Reader.single.Respects room s :=
  respects_of_scalar (by intro ms a h; cases h) (by intro vs a h; cases h)

theorem respects_optionalString : Reader.string.option.Respects room s :=
  respects_of_scalar (by intro ms a h; cases h) (by intro vs a h; cases h)

/-- An object that names a case has no other member to change places with. -/
theorem respects_choice (cases : List (String × α)) :
    (Reader.choice cases).Respects room .atom := by
  intro d d' a hstep hread
  obtain ⟨ms, ms', rfl, rfl, hperm⟩ := hstep.of_atom
  obtain ⟨name, -, hd | hd⟩ := choice_ok hread
  · cases hd
  · obtain rfl : ms = [(.ok name, .null)] := Draft.objectOf_inj hd
    rw [← hperm.singleton_eq]
    exact hread

theorem exists_of_items {us ws : List Draft} {v : Draft} {as : List α}
    (h : items r (.closed (us ++ v :: ws)) = .ok as) : ∃ a, r v = .ok a := by
  induction us generalizing as with
  | nil =>
    obtain ⟨a, ha, -⟩ := bind_ok_iff.1 h
    exact ⟨a, ha⟩
  | cons u us ih =>
    obtain ⟨b, -, h'⟩ := bind_ok_iff.1 h
    obtain ⟨bs, hbs, -⟩ := bind_ok_iff.1 h'
    exact ih hbs

theorem items_congr {us ws : List Draft} {v v' : Draft} (h : r v = r v') :
    items r (.closed (us ++ v :: ws)) = items r (.closed (us ++ v' :: ws)) := by
  induction us with
  | nil => simp only [List.nil_append, Items.closed, items, h]
  | cons u us ih => simp only [List.cons_append, Items.closed, items, ih]

theorem Respects.list (h : r.Respects (room - 1) s) : r.list.Respects room (.list s) := by
  intro d d' as hstep hread
  rcases hstep.source with ⟨ms, rfl⟩ | ⟨vs, rfl⟩
  · cases hread
  · obtain ⟨us, v, v', ws, rfl, rfl, hinner⟩ := hstep.of_list
    obtain ⟨a, ha⟩ := exists_of_items hread
    have hsame : r v = r v' := by rw [ha, h v v' a hinner ha]
    exact (items_congr hsame).symm.trans hread

end Reader

/-! ### Tagged records -/

mutual

theorem sound?_ofJson (room : Nat) :
    (v : Json) → v.fits room = true → (Draft.ofJson v).sound? room = none
  | .null, _ | .bool _, _ | .string _, _ => rfl
  | .number n, h => by
    rw [fits] at h
    rw [Draft.ofJson, Draft.sound?, if_pos h]
  | .array items, h => by
    rw [fits, Bool.and_eq_true, decide_eq_true_eq] at h
    rw [Draft.ofJson, Draft.sound?, if_neg (by omega)]
    exact soundItems?_ofJson (room - 1) items h.2
  | .object members, h => by
    rw [fits, Bool.and_eq_true, decide_eq_true_eq] at h
    rw [Draft.ofJson, Draft.sound?, if_neg (by omega)]
    exact soundMembers?_ofJson (room - 1) members h.2

theorem soundItems?_ofJson (room : Nat) :
    (vs : List Json) → fitsItems room vs = true → (Items.ofJson vs).sound? room = none
  | [], _ => rfl
  | v :: rest, h => by
    rw [fitsItems, Bool.and_eq_true] at h
    rw [Items.ofJson, Items.sound?, sound?_ofJson room v h.1]
    exact soundItems?_ofJson room rest h.2

theorem soundMembers?_ofJson (room : Nat) :
    (ms : List (String × Json)) → fitsMembers room ms = true →
      (Members.ofJson ms).sound? room = none
  | [], _ => rfl
  | (name, v) :: rest, h => by
    rw [fitsMembers, Bool.and_eq_true] at h
    rw [Members.ofJson, Members.sound?, sound?_ofJson room v h.1]
    exact soundMembers?_ofJson room rest h.2

end

theorem Members.ending_of_sound? {depth : Nat} {ms : Members} (h : ms.sound? depth = none) :
    ms.ending = .closed := by
  cases ms with
  | stop e => exact Ending.memberFlaw?_eq_none.1 h
  | cons name v rest =>
    show rest.ending = .closed
    cases name with
    | error f => cases h
    | ok key =>
      rw [Members.sound?] at h
      cases hv : v.sound? depth with
      | some f =>
        rw [hv] at h
        cases h
      | none =>
        rw [hv] at h
        exact ending_of_sound? h

theorem Members.sound?_closed {depth : Nat} {ms : List (Quoted × Draft)} :
    (Members.closed ms).sound? depth = none ↔
      ∀ m ∈ ms, (∃ key, m.1 = .ok key) ∧ m.2.sound? depth = none := by
  induction ms with
  | nil => simp [Members.closed, Members.sound?, Ending.memberFlaw?]
  | cons m ms ih =>
    obtain ⟨key, v⟩ := m
    cases key with
    | error f => simp [Members.closed, Members.sound?]
    | ok key =>
      cases hv : v.sound? depth with
      | some f => simp [Members.closed, Members.sound?, hv]
      | none => simp [Members.closed, Members.sound?, hv, ih]

theorem Draft.sound?_objectOf {room : Nat} {ms : List (Quoted × Draft)} :
    (Draft.objectOf ms).sound? room = none ↔
      room ≠ 0 ∧ ∀ m ∈ ms, (∃ key, m.1 = .ok key) ∧ m.2.sound? (room - 1) = none := by
  rw [Draft.objectOf, Draft.sound?, ← Members.sound?_closed]
  by_cases hroom : room = 0
  · simp [hroom]
  · simp [hroom]

theorem Draft.sound?_arrayOf {room : Nat} {vs : List Draft} :
    (Draft.arrayOf vs).sound? room = none ↔
      room ≠ 0 ∧ ∀ v ∈ vs, v.sound? (room - 1) = none := by
  rw [Draft.arrayOf, Draft.sound?, ← Items.sound?_closed]
  by_cases hroom : room = 0
  · simp [hroom]
  · simp [hroom]

/-- What nobody looks at, or looks at as a whole, stays sound. -/
theorem Step.sound? {room : Nat} {s : Shape} {d d' : Draft} (h : Step room s d d')
    (hs : s = .atom ∨ s = .ignored) (hd : d.sound? room = none) : d'.sound? room = none := by
  induction h with
  | permute hperm =>
    obtain ⟨hroom, hms⟩ := Draft.sound?_objectOf.1 hd
    exact Draft.sound?_objectOf.2 ⟨hroom, fun m hm => hms m (hperm.mem_iff.2 hm)⟩
  | insert hf hkey hv =>
    obtain ⟨hroom, hms⟩ := Draft.sound?_objectOf.1 hd
    refine Draft.sound?_objectOf.2 ⟨hroom, fun m hm => ?_⟩
    rcases List.mem_cons.1 hm with rfl | hm
    · exact ⟨⟨_, rfl⟩, sound?_ofJson _ _ hv⟩
    · exact hms m hm
  | fill hf hmem =>
    rcases hs with rfl | rfl
    · cases hf
    · cases hf
      cases hmem
  | drop hf =>
    obtain ⟨hroom, hms⟩ := Draft.sound?_objectOf.1 hd
    exact Draft.sound?_objectOf.2 ⟨hroom, fun m hm => hms m (List.mem_cons_of_mem _ hm)⟩
  | @member room s ms fields key v v' hf hstep ih =>
    rcases hs with rfl | rfl
    · cases hf
    · cases hf
      have hignored : shapeOf [] key = .ignored := by
        cases key <;> rfl
      obtain ⟨hroom, hms⟩ := Draft.sound?_objectOf.1 hd
      obtain ⟨hkey, hv⟩ := hms _ (List.mem_cons_self ..)
      refine Draft.sound?_objectOf.2 ⟨hroom, fun m hm => ?_⟩
      rcases List.mem_cons.1 hm with rfl | hm
      · exact ⟨hkey, ih (.inr hignored) hv⟩
      · exact hms m (List.mem_cons_of_mem _ hm)
  | asArray hne hf =>
    rcases hs with rfl | rfl
    · cases hf
    · exact absurd rfl hne
  | fillLast hf | dropLast hf =>
    rcases hs with rfl | rfl
    · cases hf
    · cases hf
  | element hshape hstep ih =>
    rcases hs with rfl | rfl
    · cases hshape
    · cases hshape
      obtain ⟨hroom, hvs⟩ := Draft.sound?_arrayOf.1 hd
      refine Draft.sound?_arrayOf.2 ⟨hroom, fun w hw => ?_⟩
      rcases List.mem_append.1 hw with hw | hw
      · exact hvs w (List.mem_append_left _ hw)
      · rcases List.mem_cons.1 hw with rfl | hw
        · exact ih (.inr rfl) (hvs _ (List.mem_append_right _ (List.mem_cons_self ..)))
        · exact hvs w (List.mem_append_right _ (List.mem_cons_of_mem _ hw))

theorem Draft.skip?_of_sound? {depth : Nat} {d : Draft} (h : d.sound? depth = none) :
    d.skip? = none := by
  cases d with
  | array is =>
    rw [Draft.sound?] at h
    by_cases hdepth : depth = 0
    · simp [hdepth] at h
    · rw [if_neg hdepth] at h
      exact Draft.skip?_array (Items.ending_of_sound? h)
  | object ms =>
    rw [Draft.sound?] at h
    by_cases hdepth : depth = 0
    · simp [hdepth] at h
    · rw [if_neg hdepth] at h
      exact Draft.skip?_object (Members.ending_of_sound? h)
  | broken b => cases h
  | null | bool _ | number _ | string _ => rfl

namespace Variant

variable {α : Type} {tag expected : String} {depth : Nat} {fields : List FieldShape}
  {ms ms' : List (Quoted × Draft)}

/-- The case is read from the same fields after a rewriting. -/
structure Respects (v : Variant α) (room : Nat) (fields : List FieldShape) : Prop where
  length : ∀ vs a, v (.items (.closed vs)) = .ok a → vs.length ≤ fields.length
  members : ∀ ms ms' a,
    (∀ f ∈ fields, FieldStep room f (valuesOf f.name ms) (valuesOf f.name ms')) →
      Passable [] ms' → v (.members (.closed ms)) = .ok a → v (.members (.closed ms')) = .ok a
  items : ∀ vs vs' a, ItemsStep room fields vs vs' → v (.items (.closed vs)) = .ok a →
    v (.items (.closed vs')) = .ok a
  listed : ∀ ms vs a, Lists fields ms vs → v (.members (.closed ms)) = .ok a →
    v (.items (.closed vs)) = .ok a

theorem respects_plain (a : α) (room : Nat) : (plain a).Respects room [] where
  length vs b h := by
    cases vs with
    | nil => exact Nat.le_refl _
    | cons v vs => cases h
  members ms ms' b _ _ h := h
  items vs vs' b hstep h := by
    cases vs with
    | cons v vs => cases h
    | nil =>
      obtain rfl := List.eq_nil_of_length_eq_zero (Nat.le_zero.1 (hstep.length (Nat.le_refl _)))
      exact h
  listed ms vs b hlists h := by
    obtain rfl := List.eq_nil_of_length_eq_zero (Nat.le_zero.1 hlists.1)
    exact h

theorem respects_record {p : Record α} (h : p.Respects depth fields)
    (expected : String) : (record expected p).Respects depth fields :=
  have := h.lawful
  { length := fun vs a ha => h.length vs a ((Record.ofItems_iff _ _).1 ha)
    members := h.members
    items := fun vs vs' a hstep ha =>
      (Record.ofItems_iff _ _).2 (h.items vs vs' a hstep ((Record.ofItems_iff _ _).1 ha))
    listed := fun ms vs a hlists ha =>
      (Record.ofItems_iff _ _).2 (h.listed ms vs a hlists ha) }

/-- The fields of a case are read as a whole, and null stands for those that
    are not there. -/
structure Flat (tag : String) (fields : List FieldShape) : Prop where
  nodup : (tag :: fields.map (·.name)).Nodup
  atom : ∀ f ∈ fields, f.shape = .atom
  null : ∀ f ∈ fields, ∀ v, f.absent = some v → v = .null

theorem Flat.name_ne (h : Flat tag fields) {f : FieldShape} (hf : f ∈ fields) : f.name ≠ tag := by
  intro hname
  have hmem : f.name ∈ fields.map (·.name) := List.mem_map_of_mem hf
  exact (List.nodup_cons.1 h.nodup).1 (hname ▸ hmem)

theorem Flat.shapeOf (h : Flat tag fields) (key : Quoted) :
    Json.shapeOf (⟨tag, .atom, none⟩ :: fields) key = .atom ∨
      Json.shapeOf (⟨tag, .atom, none⟩ :: fields) key = .ignored := by
  cases key with
  | error f => exact .inr rfl
  | ok key =>
    rw [Json.shapeOf]
    cases hfind : List.find? (·.name == key) (⟨tag, .atom, none⟩ :: fields) with
    | none => exact .inr rfl
    | some f =>
      refine .inl ?_
      rcases List.mem_cons.1 (List.mem_of_find?_eq_some hfind) with rfl | hf
      · rfl
      · exact h.atom f hf

/-- The tag of a case is not rewritten. -/
theorem eq_of_tagStep {name : String} {ys : List Draft}
    (h : FieldStep depth ⟨tag, .atom, none⟩ [.string (.ok name)] ys) :
    ys = [.string (.ok name)] := by
  cases h with
  | permute hperm => exact hperm.singleton_eq.symm
  | drop hv => cases hv
  | inner hstep =>
    obtain ⟨ms, -, hms, -⟩ := hstep.of_atom
    cases hms

theorem Flat.sound (hflat : Flat tag fields)
    (hstep : MembersStep depth (⟨tag, .atom, none⟩ :: fields) ms ms')
    (hsound : SoundBeside tag depth ms) : SoundBeside tag depth ms' := by
  intro m hm
  rcases hstep.members m hm with hold | hnew
  · exact hsound m hold
  · cases hnew with
    | inserted hv => exact ⟨_, rfl, fun _ => sound?_ofJson depth _ hv⟩
    | filled hf hv =>
      rcases List.mem_cons.1 hf with rfl | hf
      · cases hv
      · obtain rfl := hflat.null _ hf _ hv
        exact ⟨_, rfl, fun _ => rfl⟩
    | changed hold hinner =>
      obtain ⟨key, hkey, hv⟩ := hsound _ hold
      exact ⟨key, hkey, fun hne => hinner.sound? (hflat.shapeOf _) (hv hne)⟩

theorem Flat.soundField (hflat : Flat tag fields) {f : FieldShape} (hf : f ∈ fields)
    {xs ys : List Draft} (hstep : FieldStep depth f xs ys)
    (hsound : ∀ x ∈ xs, x.sound? depth = none) : ∀ y ∈ ys, y.sound? depth = none := by
  intro y hy
  cases hstep with
  | permute hperm => exact hsound y (hperm.mem_iff.2 hy)
  | fill hv =>
    obtain rfl := List.mem_singleton.1 hy
    obtain rfl := hflat.null f hf _ hv
    rfl
  | drop hv => exact hsound y (List.mem_cons_of_mem _ hy)
  | inner hinner =>
    rcases List.mem_cons.1 hy with rfl | hy
    · exact hinner.sound? (.inl (hflat.atom f hf)) (hsound _ (List.mem_cons_self ..))
    · exact hsound y (List.mem_cons_of_mem _ hy)

theorem passable_others (h : SoundBeside tag depth ms) : Passable [] (others tag ms) := by
  intro m hm
  obtain ⟨hm, hother⟩ := List.mem_filter.1 hm
  obtain ⟨key, hkey, hsound⟩ := h m hm
  have hne : key ≠ tag := by
    rintro rfl
    simp [isNamed, hkey] at hother
  exact ⟨key, hkey, fun _ => Draft.skip?_of_sound? (hsound hne)⟩

theorem exists_cons_of_head? {vs : List Draft} {v : Draft} (h : vs[0]?.toList = [v]) :
    ∃ rest, vs = v :: rest := by
  cases vs with
  | nil => cases h
  | cons w rest =>
    cases h
    exact ⟨rest, rfl⟩

theorem exists_field {rest : List Draft} {w : Draft} (h : rest.length ≤ fields.length)
    (hw : w ∈ rest) : ∃ (i : Nat) (f : FieldShape), fields[i]? = some f ∧ rest[i]? = some w := by
  obtain ⟨i, hi⟩ := List.mem_iff_getElem?.1 hw
  obtain ⟨hlt, -⟩ := List.getElem?_eq_some_iff.1 hi
  exact ⟨i, _, List.getElem?_eq_getElem (Nat.lt_of_lt_of_le hlt h), hi⟩

theorem exists_shape {cases : List (String × Variant α)}
    {shapes : List (String × List FieldShape)}
    (h : List.Forall₂ (fun c s => c.1 = s.1 ∧ c.2.Respects depth s.2) cases shapes)
    {name : String} {v : Variant α} (hv : cases.lookup name = some v) :
    ∃ fields, shapes.lookup name = some fields ∧ (name, fields) ∈ shapes ∧
      v.Respects depth fields := by
  induction h with
  | nil => cases hv
  | @cons c s cases shapes hcase _ ih =>
    obtain ⟨key, w⟩ := c
    obtain ⟨key', fields⟩ := s
    obtain ⟨rfl, hw⟩ := hcase
    rw [List.lookup_cons] at hv ⊢
    by_cases hname : name = key
    · subst hname
      simp only [BEq.rfl, Option.some.injEq] at hv ⊢
      subst hv
      exact ⟨fields, rfl, List.mem_cons_self .., hw⟩
    · simp only [beq_eq_false_iff_ne.2 hname] at hv ⊢
      obtain ⟨fields, hlookup, hmem, hrespects⟩ := ih hv
      exact ⟨fields, hlookup, List.mem_cons_of_mem _ hmem, hrespects⟩

/-- A tagged record is read from the same case after a rewriting. -/
theorem respects_read {cases : List (String × Variant α)}
    {shapes : List (String × List FieldShape)} (hflat : ∀ c ∈ shapes, Flat tag c.2)
    (hcases : List.Forall₂ (fun c s => c.1 = s.1 ∧ c.2.Respects depth s.2) cases shapes) :
    Reader.Respects (Variant.read tag expected depth cases) (depth + 1) (.tagged tag shapes) := by
  intro d d' a hstep hread
  rcases hstep.source with ⟨ms, rfl⟩ | ⟨vs, rfl⟩
  · obtain ⟨name, v, htag, hlookup, hsound, hv⟩ := read_object_iff.1 hread
    obtain ⟨fields, hshapes, hmem, hrespects⟩ := exists_shape hcases hlookup
    have hflat := hflat _ hmem
    have hfields : (Shape.tagged tag shapes).fieldsOf ms = some (⟨tag, .atom, none⟩ :: fields) := by
      simp [Shape.fieldsOf, htag, Shape.caseFields, hshapes]
    have hothers (f : FieldShape) (hf : f ∈ fields) (ns : List (Quoted × Draft)) :
        valuesOf f.name (others tag ns) = valuesOf f.name ns :=
      valuesOf_others (hflat.name_ne hf) ns
    rcases hstep.of_object hfields hflat.nodup with ⟨ms', rfl, hms⟩ | ⟨vs, rfl, hlists⟩
    · have htag' := hms.values _ (List.mem_cons_self ..)
      rw [htag] at htag'
      have hsound' := hflat.sound hms hsound
      refine read_object_iff.2 ⟨name, v, eq_of_tagStep htag', hlookup, hsound', ?_⟩
      refine hrespects.members _ _ a (fun f hf => ?_) (passable_others hsound') hv
      rw [hothers f hf, hothers f hf]
      exact hms.values f (List.mem_cons_of_mem _ hf)
    · have hhead := hlists.2 0 _ rfl
      rw [htag] at hhead
      obtain ⟨rest, rfl⟩ := exists_cons_of_head? hhead.symm
      have hrest : Lists fields ms rest :=
        (show Lists ([⟨tag, .atom, none⟩] ++ fields) ms (.string (.ok name) :: rest)
          from hlists).drop
      have hrest' : Lists fields (others tag ms) rest := by
        refine ⟨hrest.1, fun i f hf => ?_⟩
        rw [hothers f (List.mem_of_getElem? hf)]
        exact hrest.2 i f hf
      refine read_array_iff.2 ⟨name, v, rest, rfl, hlookup, fun w hw => ?_,
        hrespects.listed _ _ a hrest' hv⟩
      obtain ⟨i, f, hf, hi⟩ := exists_field hrest.1 hw
      have hw : w ∈ valuesOf f.name ms := by
        rw [hrest.2 i f hf, hi]
        exact List.mem_singleton_self w
      obtain ⟨key, hkey, hsound⟩ := hsound _ (mem_valuesOf.1 hw)
      cases hkey
      exact hsound (hflat.name_ne (List.mem_of_getElem? hf))
  · obtain ⟨name, v, rest, rfl, hlookup, hsound, hv⟩ := read_array_iff.1 hread
    obtain ⟨fields, hshapes, hmem, hrespects⟩ := exists_shape hcases hlookup
    have hflat := hflat _ hmem
    have hfields : (Shape.tagged tag shapes).fieldsAt (.string (.ok name) :: rest) =
        some (⟨tag, .atom, none⟩ :: fields) := by
      simp [Shape.fieldsAt, Shape.caseFields, hshapes]
    obtain ⟨vs', rfl, hvs⟩ := hstep.of_array hfields
    obtain ⟨rest', rfl⟩ := exists_cons_of_head? (eq_of_tagStep (hvs.values 0 _ rfl))
    have hrest : ItemsStep depth fields rest rest' :=
      (show ItemsStep depth ([⟨tag, .atom, none⟩] ++ fields) (.string (.ok name) :: rest)
        (.string (.ok name) :: rest') from hvs).drop
    have hlength := hrest.length (hrespects.length rest a hv)
    refine read_array_iff.2 ⟨name, v, rest', rfl, hlookup, fun w hw => ?_,
      hrespects.items _ _ a hrest hv⟩
    obtain ⟨i, f, hf, hi⟩ := exists_field hlength hw
    have hfield := hrest.values i f hf
    rw [hi] at hfield
    refine hflat.soundField (List.mem_of_getElem? hf) hfield (fun x hx => ?_) w
      (List.mem_singleton_self w)
    exact hsound x (List.mem_of_getElem? (Option.mem_toList.1 hx))

end Variant

end Shading.Json
