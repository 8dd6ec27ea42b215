/-
  Which document a text spells.

  A draft without a broken place has a list of tokens (`Draft.tokens`), and
  `Spells text d` says that the text is a spelling of that list.  Building
  finds exactly the draft that a text spells (`spells_iff`); any other text
  leaves a flaw that no reader of the value overlooks (`ofText_cases`).
-/
import Shading.Json.Draft
import Shading.Proofs.Lexemes

namespace Shading.Json

/-! ## The tokens of a draft -/

mutual

/-- The tokens of a value. -/
def Draft.tokens : Draft → List Token
  | .null => [.null]
  | .bool b => [.bool b]
  | .number n => [.number n]
  | .string s => [.string s]
  | .array items => .openArray :: items.tokens []
  | .object members => .openObject :: members.tokens []
  | .broken b => [.broken false b]

/-- The tokens of the elements of an array and of its end; what stands before
    the first of them, if there is one, is given. -/
def Items.tokens : List Token → Items → List Token
  | _, .stop _ => [.closeArray]
  | before, .cons v rest => before ++ (v.tokens ++ rest.tokens [.comma])

@[inherit_doc Items.tokens]
def Members.tokens : List Token → Members → List Token
  | _, .stop _ => [.closeObject]
  | before, .cons name v rest =>
    before ++ (.string name :: .colon :: (v.tokens ++ rest.tokens [.comma]))

end

mutual

/-- Whether a value has no broken place and all its brackets are closed. -/
def Draft.isWhole : Draft → Bool
  | .array items => items.isWhole
  | .object members => members.isWhole
  | .broken _ => false
  | _ => true

@[inherit_doc Draft.isWhole]
def Items.isWhole : Items → Bool
  | .stop .closed => true
  | .stop _ => false
  | .cons v rest => v.isWhole && rest.isWhole

@[inherit_doc Draft.isWhole]
def Members.isWhole : Members → Bool
  | .stop .closed => true
  | .stop _ => false
  | .cons _ v rest => v.isWhole && rest.isWhole

end

/-- The text is a spelling of the value. -/
structure Spells (text : String) (d : Draft) : Prop where
  whole : d.isWhole = true
  spelled : Spelled d.tokens text.toList

mutual

theorem Draft.unbroken_tokens : (d : Draft) → d.isWhole = true → Unbroken d.tokens
  | .null, _ | .bool _, _ | .number _, _ | .string _, _ => by
    intro t ht
    cases List.mem_singleton.1 ht
    rfl
  | .array items, h => by
    intro t ht
    rcases List.mem_cons.1 ht with rfl | ht
    · rfl
    · exact items.unbroken_tokens h [] (fun t ht => by cases ht) t ht
  | .object members, h => by
    intro t ht
    rcases List.mem_cons.1 ht with rfl | ht
    · rfl
    · exact members.unbroken_tokens h [] (fun t ht => by cases ht) t ht
  | .broken _, h => by cases h

theorem Items.unbroken_tokens : (is : Items) → is.isWhole = true → (before : List Token) →
    Unbroken before → Unbroken (is.tokens before)
  | .stop _, _, _, _ => by
    intro t ht
    cases List.mem_singleton.1 ht
    rfl
  | .cons v rest, h, before, hb => by
    simp only [Items.isWhole, Bool.and_eq_true] at h
    intro t ht
    simp only [Items.tokens, List.mem_append] at ht
    rcases ht with ht | ht | ht
    · exact hb t ht
    · exact v.unbroken_tokens h.1 t ht
    · refine rest.unbroken_tokens h.2 [.comma] (fun t ht => ?_) t ht
      cases List.mem_singleton.1 ht
      rfl

theorem Members.unbroken_tokens : (ms : Members) → ms.isWhole = true → (before : List Token) →
    Unbroken before → Unbroken (ms.tokens before)
  | .stop _, _, _, _ => by
    intro t ht
    cases List.mem_singleton.1 ht
    rfl
  | .cons name v rest, h, before, hb => by
    simp only [Members.isWhole, Bool.and_eq_true] at h
    intro t ht
    simp only [Members.tokens, List.mem_append, List.mem_cons] at ht
    rcases ht with ht | rfl | rfl | ht | ht
    · exact hb t ht
    · rfl
    · rfl
    · exact v.unbroken_tokens h.1 t ht
    · refine rest.unbroken_tokens h.2 [.comma] (fun t ht => ?_) t ht
      cases List.mem_singleton.1 ht
      rfl

end

/-! ## Building a value from its tokens -/

/-- The document that growth and some more tokens make. -/
def Document.grow : Growth → List Token → Document
  | .more p outer, rest => build p outer rest
  | .stopped d, _ => ⟨d, false⟩
  | .complete d, rest => ⟨d, !rest.isEmpty⟩

theorem Document.build_cons (p : Place) (outer : List Frame) (t : Token) (rest : List Token) :
    build p outer (t :: rest) = grow (p.step outer t) rest := by
  rw [build]
  cases p.step outer t <;> rfl

/-- A place, inside the frames `around`, where a value may begin, inside the
    frames `outer`. -/
def Place.Awaits (p : Place) (around outer : List Frame) : Prop :=
  ∀ t : Token, t ≠ .closeArray → p.step around t = Place.beginValue outer t

theorem Place.awaits_value (outer : List Frame) : Place.value.Awaits outer outer :=
  fun _ _ => rfl

theorem Place.awaits_first (done : List Draft) (outer : List Frame) :
    (Place.item .first done).Awaits outer (.array done :: outer) := by
  intro t ht
  cases t with
  | closeArray => exact absurd rfl ht
  | _ => rfl

theorem Place.awaits_afterComma (done : List Draft) (outer : List Frame) :
    (Place.item .afterComma done).Awaits outer (.array done :: outer) := by
  intro t ht
  cases t with
  | closeArray => exact absurd rfl ht
  | _ => rfl

mutual

theorem Draft.build_tokens : (d : Draft) → d.isWhole = true → {p : Place} →
    {around outer : List Frame} → p.Awaits around outer → (rest : List Token) →
    Document.build p around (d.tokens ++ rest) = Document.grow (Frame.accept d outer) rest
  | .null, _, p, around, _, hp, rest | .bool _, _, p, around, _, hp, rest
  | .number _, _, p, around, _, hp, rest | .string _, _, p, around, _, hp, rest => by
    rw [Draft.tokens, List.singleton_append, Document.build_cons, hp _ (fun h => by cases h)]
    rfl
  | .array items, h, p, around, outer, hp, rest => by
    rw [Draft.tokens, List.cons_append, Document.build_cons, hp _ (fun h => by cases h)]
    exact items.build_tokens h .first [] (.inl ⟨rfl, rfl⟩) outer rest
  | .object members, h, p, around, outer, hp, rest => by
    rw [Draft.tokens, List.cons_append, Document.build_cons, hp _ (fun h => by cases h)]
    exact members.build_tokens h .first [] (.inl ⟨rfl, rfl⟩) outer rest
  | .broken _, h, _, _, _, _, _ => by cases h

theorem Items.build_tokens : (is : Items) → is.isWhole = true → (gap : Gap) →
    (done : List Draft) → {before : List Token} →
    (gap = .first ∧ before = [] ∨ gap = .separator ∧ before = [.comma]) →
    (outer : List Frame) → (rest : List Token) →
    Document.build (.item gap done) outer (is.tokens before ++ rest) =
      Document.grow (Frame.accept (.array (Items.ofReverse done is)) outer) rest
  | .stop .closed, _, gap, done, before, hg, outer, rest => by
    rw [Items.tokens, List.singleton_append, Document.build_cons]
    rcases hg with ⟨rfl, rfl⟩ | ⟨rfl, rfl⟩
    · rfl
    · rfl
  | .stop (.ended _), h, _, _, _, _, _, _ | .stop (.unexpected _ _), h, _, _, _, _, _, _
  | .stop (.within _), h, _, _, _, _, _, _ => by cases h
  | .cons v tail, h, gap, done, before, hg, outer, rest => by
    simp only [Items.isWhole, Bool.and_eq_true] at h
    have hrest := tail.build_tokens h.2 .separator (v :: done) (.inr ⟨rfl, rfl⟩) outer rest
    rcases hg with ⟨rfl, rfl⟩ | ⟨rfl, rfl⟩
    · rw [Items.tokens, List.nil_append, List.append_assoc,
        v.build_tokens h.1 (Place.awaits_first done outer)]
      exact hrest
    · rw [Items.tokens, List.append_assoc, List.singleton_append, Document.build_cons]
      show Document.build (.item .afterComma done) outer _ = _
      rw [List.append_assoc, v.build_tokens h.1 (Place.awaits_afterComma done outer)]
      exact hrest

theorem Members.build_tokens : (ms : Members) → ms.isWhole = true → (gap : Gap) →
    (done : List (Quoted × Draft)) → {before : List Token} →
    (gap = .first ∧ before = [] ∨ gap = .separator ∧ before = [.comma]) →
    (outer : List Frame) → (rest : List Token) →
    Document.build (.name gap done) outer (ms.tokens before ++ rest) =
      Document.grow (Frame.accept (.object (Members.ofReverse done ms)) outer) rest
  | .stop .closed, _, gap, done, before, hg, outer, rest => by
    rw [Members.tokens, List.singleton_append, Document.build_cons]
    rcases hg with ⟨rfl, rfl⟩ | ⟨rfl, rfl⟩
    · rfl
    · rfl
  | .stop (.ended _), h, _, _, _, _, _, _ | .stop (.unexpected _ _), h, _, _, _, _, _, _
  | .stop (.within _), h, _, _, _, _, _, _ => by cases h
  | .cons name v tail, h, gap, done, before, hg, outer, rest => by
    simp only [Members.isWhole, Bool.and_eq_true] at h
    have hrest := tail.build_tokens h.2 .separator ((name, v) :: done) (.inr ⟨rfl, rfl⟩) outer rest
    -- the name and the colon, then the value and the other members
    have hmember : Document.build .value (.object done name :: outer)
        (v.tokens ++ (tail.tokens [.comma] ++ rest)) =
        Document.grow (Frame.accept (.object (Members.ofReverse done (.cons name v tail))) outer)
          rest := by
      rw [v.build_tokens h.1 (Place.awaits_value _)]
      exact hrest
    rcases hg with ⟨rfl, rfl⟩ | ⟨rfl, rfl⟩
    · rw [Members.tokens, List.nil_append, List.cons_append, List.cons_append, List.append_assoc,
        Document.build_cons]
      show Document.build (.colon done name) outer _ = _
      rw [Document.build_cons]
      exact hmember
    · rw [Members.tokens, List.append_assoc, List.singleton_append, List.cons_append,
        List.cons_append, List.append_assoc, Document.build_cons]
      show Document.build (.name .afterComma done) outer _ = _
      rw [Document.build_cons]
      show Document.build (.colon done name) outer _ = _
      rw [Document.build_cons]
      exact hmember

end

/-- The document of a text that spells a value. -/
theorem Spells.ofText {text : String} {d : Draft} (h : Spells text d) :
    Document.ofText text = ⟨d, false⟩ := by
  rw [Document.ofText, (spelled_iff.1 h.spelled).1, ← List.append_nil d.tokens,
    d.build_tokens h.whole (Place.awaits_value [])]
  rfl

/-! ## The tokens read so far -/

/-- The comma behind elements that others follow. -/
def separator {α : Type} (done : List α) : List Token :=
  if done.isEmpty then [] else [.comma]

/-- The tokens of array elements that stand in reverse. -/
def itemTokens : List Draft → List Token
  | [] => []
  | v :: done => itemTokens done ++ separator done ++ v.tokens

/-- The tokens of object members that stand in reverse. -/
def memberTokens : List (Quoted × Draft) → List Token
  | [] => []
  | (name, v) :: done =>
    memberTokens done ++ separator done ++ .string name :: .colon :: v.tokens

theorem Items.tokens_ofReverse (done : List Draft) (rest : Items) :
    (Items.ofReverse done rest).tokens [] = itemTokens done ++ rest.tokens (separator done) := by
  induction done generalizing rest with
  | nil => rfl
  | cons v done ih =>
    rw [Items.ofReverse, ih, Items.tokens]
    simp [itemTokens, separator]

theorem Members.tokens_ofReverse (done : List (Quoted × Draft)) (rest : Members) :
    (Members.ofReverse done rest).tokens [] =
      memberTokens done ++ rest.tokens (separator done) := by
  induction done generalizing rest with
  | nil => rfl
  | cons m done ih =>
    obtain ⟨name, v⟩ := m
    rw [Members.ofReverse, ih, Members.tokens]
    simp [memberTokens, separator]

theorem Items.isWhole_ofReverse {done : List Draft} (h : ∀ v ∈ done, v.isWhole = true)
    (rest : Items) (hr : rest.isWhole = true) : (Items.ofReverse done rest).isWhole = true := by
  induction done generalizing rest with
  | nil => exact hr
  | cons v done ih =>
    refine ih (fun w hw => h w (List.mem_cons_of_mem v hw)) (.cons v rest) ?_
    simp [Items.isWhole, h v (List.mem_cons_self ..), hr]

theorem Members.isWhole_ofReverse {done : List (Quoted × Draft)}
    (h : ∀ m ∈ done, m.2.isWhole = true) (rest : Members) (hr : rest.isWhole = true) :
    (Members.ofReverse done rest).isWhole = true := by
  induction done generalizing rest with
  | nil => exact hr
  | cons m done ih =>
    refine ih (fun w hw => h w (List.mem_cons_of_mem m hw)) (.cons m.1 m.2 rest) ?_
    simp [Members.isWhole, h m (List.mem_cons_self ..), hr]

theorem Items.ending_ofReverse (done : List Draft) (rest : Items) :
    (Items.ofReverse done rest).ending = rest.ending := by
  induction done generalizing rest with
  | nil => rfl
  | cons v done ih => exact ih (.cons v rest)

theorem Members.ending_ofReverse (done : List (Quoted × Draft)) (rest : Members) :
    (Members.ofReverse done rest).ending = rest.ending := by
  induction done generalizing rest with
  | nil => rfl
  | cons m done ih => exact ih (.cons m.1 m.2 rest)

namespace Frame

/-- The tokens of an open array or object before the value being read. -/
def tokens : Frame → List Token
  | .array done => .openArray :: (itemTokens done ++ separator done)
  | .object done name =>
    .openObject :: (memberTokens done ++ separator done ++ [.string name, .colon])

/-- Whether the finished values of a frame are whole. -/
def Whole : Frame → Prop
  | .array done => ∀ v ∈ done, v.isWhole = true
  | .object done _ => ∀ m ∈ done, m.2.isWhole = true

/-- The tokens of open arrays and objects, the innermost of which stands
    first. -/
def allTokens : List Frame → List Token
  | [] => []
  | f :: outer => allTokens outer ++ f.tokens

end Frame

namespace Place

/-- Whether a comma has been read behind the last element; at the first place
    there is none. -/
def gapTokens : Gap → List Token
  | .first | .separator => []
  | .afterComma => [.comma]

/-- Only the first place has nothing before it. -/
def GapFits {α : Type} (gap : Gap) (done : List α) : Prop :=
  gap = .first ↔ done = []

/-- The tokens read inside the innermost frame. -/
def tokens : Place → List Token
  | .value => []
  | .item gap done => .openArray :: (itemTokens done ++ gapTokens gap)
  | .name gap done => .openObject :: (memberTokens done ++ gapTokens gap)
  | .colon done key => .openObject :: (memberTokens done ++ separator done ++ [.string key])

/-- What has been read at a place is whole. -/
def Whole : Place → Prop
  | .value => True
  | .item gap done => GapFits gap done ∧ ∀ v ∈ done, v.isWhole = true
  | .name gap done => GapFits gap done ∧ ∀ m ∈ done, m.2.isWhole = true
  | .colon done _ => ∀ m ∈ done, m.2.isWhole = true

end Place

/-- The tokens `us` have led to a place inside some frames. -/
structure Reached (us : List Token) (p : Place) (outer : List Frame) : Prop where
  tokens : us = Frame.allTokens outer ++ p.tokens
  whole : p.Whole
  frames : ∀ f ∈ outer, f.Whole

/-- What the tokens `us` have come to. -/
def Grown (us : List Token) : Growth → Prop
  | .more p outer => Reached us p outer
  | .stopped d => d.skip?.isSome = true
  | .complete d => d.isWhole = true ∧ us = d.tokens

/-- A flaw inside a value is one of the whole text. -/
theorem Frame.skip?_unwind {d : Draft} (h : d.skip?.isSome = true) (outer : List Frame) :
    (Frame.unwind d outer).skip?.isSome = true := by
  induction outer generalizing d with
  | nil => exact h
  | cons f outer ih =>
    cases f with
    | array done =>
      refine ih ?_
      simp only [Draft.skip?, Items.ending_ofReverse, Items.ending]
      rfl
    | object done name =>
      refine ih ?_
      simp only [Draft.skip?, Members.ending_ofReverse, Members.ending]
      rfl

theorem Frame.grown_stopped {us : List Token} {d : Draft} (h : d.skip?.isSome = true)
    (outer : List Frame) : Grown us (.stopped (Frame.unwind d outer)) :=
  Frame.skip?_unwind h outer

theorem Frame.grown_accept {outer : List Frame} (hf : ∀ f ∈ outer, f.Whole) {d : Draft}
    (hd : d.isWhole = true) {us : List Token} (hu : us = Frame.allTokens outer ++ d.tokens) :
    Grown us (Frame.accept d outer) := by
  cases outer with
  | nil => exact ⟨hd, hu⟩
  | cons f outer =>
    have hwhole : f.Whole := hf f (List.mem_cons_self ..)
    have houter : ∀ g ∈ outer, g.Whole := fun g hg => hf g (List.mem_cons_of_mem f hg)
    cases f with
    | array done =>
      refine ⟨?_, ⟨?_, ?_⟩, houter⟩
      · rw [hu]
        simp [Frame.allTokens, Frame.tokens, Place.tokens, Place.gapTokens, itemTokens]
      · simp [Place.GapFits]
      · intro v hv
        rcases List.mem_cons.1 hv with rfl | hv
        · exact hd
        · exact hwhole v hv
    | object done name =>
      refine ⟨?_, ⟨?_, ?_⟩, houter⟩
      · rw [hu]
        simp [Frame.allTokens, Frame.tokens, Place.tokens, Place.gapTokens, memberTokens]
      · simp [Place.GapFits]
      · intro m hm
        rcases List.mem_cons.1 hm with rfl | hm
        · exact hd
        · exact hwhole m hm

namespace Place

theorem grown_beginValue {outer : List Frame} (hf : ∀ f ∈ outer, f.Whole) {us : List Token}
    {t : Token} (hu : us = Frame.allTokens outer ++ [t]) : Grown us (beginValue outer t) := by
  cases t with
  | null | bool _ | number _ | string _ => exact Frame.grown_accept hf rfl hu
  | openArray => exact ⟨hu, ⟨by simp [GapFits], by simp⟩, hf⟩
  | openObject => exact ⟨hu, ⟨by simp [GapFits], by simp⟩, hf⟩
  | broken _ _ | closeArray | closeObject | colon | comma => exact Frame.grown_stopped rfl outer

theorem skip?_endArray {e : Ending} (h : e.skippedItem?.isSome = true) (done : List Draft) :
    (endArray done e).skip?.isSome = true := by
  simp only [endArray, Draft.skip?, Items.ending_ofReverse, Items.ending]
  exact h

theorem skip?_endObject {e : Ending} (h : e.skippedMember?.isSome = true)
    (done : List (Quoted × Draft)) : (endObject done e).skip?.isSome = true := by
  simp only [endObject, Draft.skip?, Members.ending_ofReverse, Members.ending]
  exact h

theorem skippedMember?_unexpected (gap : Gap) (t : Token) :
    (Ending.unexpected gap t).skippedMember?.isSome = true := by
  cases gap with
  | separator => rfl
  | first | afterComma =>
    cases t with
    | broken quoted b => cases quoted <;> rfl
    | _ => rfl

theorem grown_stepItem {us : List Token} {gap : Gap} {done : List Draft} {outer : List Frame}
    (h : Reached us (.item gap done) outer) (t : Token) :
    Grown (us ++ [t]) (stepItem gap done outer t) := by
  obtain ⟨rfl, ⟨hgap, hdone⟩, hf⟩ := h
  have hclose (hg : gapTokens gap = []) :
      Grown (Frame.allTokens outer ++ tokens (.item gap done) ++ [.closeArray])
        (Frame.accept (endArray done .closed) outer) := by
    have hwhole : (endArray done .closed).isWhole = true :=
      Items.isWhole_ofReverse hdone (.stop .closed) rfl
    refine Frame.grown_accept hf hwhole ?_
    simp [endArray, Draft.tokens, Items.tokens_ofReverse, Items.tokens, tokens, hg]
  -- a value begins where the comma, if one is due, has been read
  have hvalue (hg : gapTokens gap = separator done) :
      Grown (Frame.allTokens outer ++ tokens (.item gap done) ++ [t])
        (beginValue (.array done :: outer) t) := by
    refine grown_beginValue ?_ ?_
    · intro f hf'
      rcases List.mem_cons.1 hf' with rfl | hf'
      · exact hdone
      · exact hf f hf'
    · simp [Frame.allTokens, Frame.tokens, tokens, hg]
  cases gap with
  | first =>
    obtain rfl := hgap.1 rfl
    cases t with
    | closeArray => exact hclose rfl
    | _ => exact hvalue rfl
  | separator =>
    have hne : done ≠ [] := fun h => by cases hgap.2 h
    cases t with
    | closeArray => exact hclose rfl
    | comma =>
      refine ⟨?_, ⟨?_, hdone⟩, hf⟩
      · simp [tokens, gapTokens]
      · simp [GapFits, hne]
    | _ => exact Frame.grown_stopped (skip?_endArray rfl done) outer
  | afterComma =>
    have hne : done ≠ [] := fun h => by cases hgap.2 h
    have hsep : gapTokens .afterComma = separator done := by
      simp [gapTokens, separator, hne]
    cases t with
    | closeArray => exact Frame.grown_stopped (skip?_endArray rfl done) outer
    | _ => exact hvalue hsep

theorem grown_stepName {us : List Token} {gap : Gap} {done : List (Quoted × Draft)}
    {outer : List Frame} (h : Reached us (.name gap done) outer) (t : Token) :
    Grown (us ++ [t]) (stepName gap done outer t) := by
  obtain ⟨rfl, ⟨hgap, hdone⟩, hf⟩ := h
  have hclose (hg : gapTokens gap = []) :
      Grown (Frame.allTokens outer ++ tokens (.name gap done) ++ [.closeObject])
        (Frame.accept (endObject done .closed) outer) := by
    have hwhole : (endObject done .closed).isWhole = true :=
      Members.isWhole_ofReverse hdone (.stop .closed) rfl
    refine Frame.grown_accept hf hwhole ?_
    simp [endObject, Draft.tokens, Members.tokens_ofReverse, Members.tokens, tokens, hg]
  have hname (hg : gapTokens gap = separator done) (key : Quoted) :
      Grown (Frame.allTokens outer ++ tokens (.name gap done) ++ [.string key])
        (.more (.colon done key) outer) := by
    refine ⟨?_, hdone, hf⟩
    simp [tokens, hg]
  have hstop (gap' : Gap) :
      Grown (Frame.allTokens outer ++ tokens (.name gap done) ++ [t])
        (.stopped (Frame.unwind (endObject done (.unexpected gap' t)) outer)) :=
    Frame.grown_stopped (skip?_endObject (skippedMember?_unexpected gap' t) done) outer
  cases gap with
  | first =>
    obtain rfl := hgap.1 rfl
    cases t with
    | closeObject => exact hclose rfl
    | string key => exact hname rfl key
    | _ => exact hstop .first
  | separator =>
    have hne : done ≠ [] := fun h => by cases hgap.2 h
    cases t with
    | closeObject => exact hclose rfl
    | comma =>
      refine ⟨?_, ⟨?_, hdone⟩, hf⟩
      · simp [tokens, gapTokens]
      · simp [GapFits, hne]
    | _ => exact hstop .separator
  | afterComma =>
    have hne : done ≠ [] := fun h => by cases hgap.2 h
    have hsep : gapTokens .afterComma = separator done := by
      simp [gapTokens, separator, hne]
    cases t with
    | string key => exact hname hsep key
    | _ => exact hstop .afterComma

/-- One token leads on from what has been read, or shows a flaw. -/
theorem grown_step {us : List Token} {p : Place} {outer : List Frame} (h : Reached us p outer)
    (t : Token) : Grown (us ++ [t]) (p.step outer t) := by
  cases p with
  | value =>
    refine grown_beginValue h.frames ?_
    rw [h.tokens]
    simp [tokens]
  | item gap done => exact grown_stepItem h t
  | name gap done => exact grown_stepName h t
  | colon done key =>
    obtain ⟨rfl, hdone, hf⟩ := h
    cases t with
    | colon =>
      refine ⟨?_, trivial, ?_⟩
      · simp [Frame.allTokens, Frame.tokens, tokens]
      · intro f hf'
        rcases List.mem_cons.1 hf' with rfl | hf'
        · exact hdone
        · exact hf f hf'
    | _ => exact Frame.grown_stopped (d := .broken (.plain .colonExpected)) rfl _

theorem skip?_finish (p : Place) (outer : List Frame) :
    (p.finish outer).skip?.isSome = true := by
  cases p with
  | value => exact Frame.skip?_unwind rfl outer
  | item gap done =>
    refine Frame.skip?_unwind (skip?_endArray ?_ done) outer
    cases gap <;> rfl
  | name gap done => exact Frame.skip?_unwind (skip?_endObject rfl done) outer
  | colon done key =>
    exact Frame.skip?_unwind (d := .broken (.plain .endInObject)) rfl (.object done key :: outer)

end Place

/-- A document is the value that its tokens begin with, or has a flaw. -/
theorem Document.build_cases {us : List Token} {p : Place} {outer : List Frame}
    (h : Reached us p outer) (ts : List Token) :
    (∃ d rest, build p outer ts = ⟨d, !rest.isEmpty⟩ ∧ d.isWhole = true ∧
        us ++ ts = d.tokens ++ rest) ∨
      (build p outer ts).root.skip?.isSome = true := by
  induction ts generalizing us p outer with
  | nil => exact .inr (Place.skip?_finish p outer)
  | cons t ts ih =>
    have hgrown := Place.grown_step h t
    rw [build_cons]
    cases hstep : p.step outer t with
    | more p' outer' =>
      rw [hstep] at hgrown
      rcases ih hgrown with ⟨d, rest, hbuild, hwhole, htokens⟩ | hflaw
      · left
        refine ⟨d, rest, hbuild, hwhole, ?_⟩
        rw [← htokens]
        simp
      · exact .inr hflaw
    | stopped d =>
      rw [hstep] at hgrown
      exact .inr hgrown
    | complete d =>
      rw [hstep] at hgrown
      left
      refine ⟨d, ts, rfl, hgrown.1, ?_⟩
      rw [← hgrown.2]
      simp

/-- A text spells the value of its document, or something follows that value,
    or the value has a flaw. -/
theorem Document.ofText_cases (text : String) :
    Spells text (Document.ofText text).root ∨ (Document.ofText text).trailing = true ∨
      (Document.ofText text).root.skip?.isSome = true := by
  have hstart : Reached [] .value [] := ⟨rfl, trivial, fun f hf => by cases hf⟩
  rcases Document.build_cases hstart (tokens text) with ⟨d, rest, hbuild, hwhole, htokens⟩ | h
  · have hdoc : Document.ofText text = ⟨d, !rest.isEmpty⟩ := hbuild
    rw [hdoc]
    cases rest with
    | nil =>
      left
      refine ⟨hwhole, spelled_iff.2 ⟨?_, d.unbroken_tokens hwhole⟩⟩
      rw [List.nil_append, List.append_nil] at htokens
      exact htokens
    | cons t rest => exact .inr (.inl rfl)
  · exact .inr (.inr h)

mutual

theorem Draft.skip?_of_isWhole : (d : Draft) → d.isWhole = true → d.skip? = none
  | .null, _ | .bool _, _ | .number _, _ | .string _, _ => rfl
  | .array items, h => by
    rw [Draft.skip?, items.ending_of_isWhole h]
    rfl
  | .object members, h => by
    rw [Draft.skip?, members.ending_of_isWhole h]
    rfl
  | .broken _, h => by cases h

theorem Items.ending_of_isWhole : (is : Items) → is.isWhole = true → is.ending = .closed
  | .stop .closed, _ => rfl
  | .stop (.ended _), h | .stop (.unexpected _ _), h | .stop (.within _), h => by cases h
  | .cons v rest, h => by
    simp only [Items.isWhole, Bool.and_eq_true] at h
    exact rest.ending_of_isWhole h.2

theorem Members.ending_of_isWhole : (ms : Members) → ms.isWhole = true → ms.ending = .closed
  | .stop .closed, _ => rfl
  | .stop (.ended _), h | .stop (.unexpected _ _), h | .stop (.within _), h => by cases h
  | .cons _ v rest, h => by
    simp only [Members.isWhole, Bool.and_eq_true] at h
    exact rest.ending_of_isWhole h.2

end

/-- Building finds the value that a text spells. -/
theorem spells_iff {text : String} {d : Draft} :
    Spells text d ↔ Document.ofText text = ⟨d, false⟩ ∧ d.isWhole = true := by
  constructor
  · intro h
    exact ⟨h.ofText, h.whole⟩
  · rintro ⟨hdoc, hwhole⟩
    rcases Document.ofText_cases text with h | h | h
    · rwa [hdoc] at h
    · rw [hdoc] at h
      cases h
    · rw [hdoc, Draft.skip?_of_isWhole d hwhole] at h
      cases h

end Shading.Json
