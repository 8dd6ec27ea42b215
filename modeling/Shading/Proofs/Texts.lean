/-
  Texts with blanks and brackets.

  * `squash_trim`, `flatMap_squash_trimmedLines`: trimming a text or its lines
    leaves all characters that are not blank.  So a text has content exactly if
    one of them is there (`content_eq_none_iff`).
  * `Bracket.level`: how deep a text is in brackets of one kind.  A text is
    `Balanced` if it closes what it opens and nothing else; blanks do not matter
    for that (`balanced_iff_squash`).
  * `Bracket.outside`: the characters outside all brackets of a kind.
  * `isAtomic_iff`: which texts bind as one operand.  Such a text is `Tight`:
    outside its parentheses it has only characters of names, numbers and member
    accesses (`tight_of_isAtomic`).
-/
import Mathlib.Data.List.DropRight
import Shading.Proofs.Names

namespace Shading

namespace Text

/-! ## Blanks -/

theorem filter_dropWhile_isBlank (cs : List Char) :
    (cs.dropWhile isBlank).filter (fun c => !isBlank c) = cs.filter fun c => !isBlank c := by
  induction cs with
  | nil => rfl
  | cons c rest ih =>
    by_cases hc : isBlank c = true
    · simp [hc, ih]
    · simp [hc]

theorem filter_dropBlankEnd (cs : List Char) :
    (dropBlankEnd cs).filter (fun c => !isBlank c) = cs.filter fun c => !isBlank c := by
  rw [dropBlankEnd, List.filter_reverse, filter_dropWhile_isBlank, ← List.filter_reverse,
    List.reverse_reverse]

theorem squash_append (s t : String) : squash (s ++ t) = squash s ++ squash t := by
  simp only [squash, String.toList_append, List.filter_append]

@[simp]
theorem squash_trim (s : String) : squash (trim s) = squash s := by
  simp only [squash, trim, String.toList_ofList, filter_dropBlankEnd, filter_dropWhile_isBlank]

/-- What is left of a text is not trimmed again. -/
@[simp]
theorem trim_trim (s : String) : trim (trim s) = trim s := by
  have hfront : (dropBlankEnd (s.toList.dropWhile isBlank)).dropWhile isBlank =
      dropBlankEnd (s.toList.dropWhile isBlank) := by
    obtain ⟨rest, hrest⟩ := List.rdropWhile_prefix isBlank (l := s.toList.dropWhile isBlank)
    change dropBlankEnd (s.toList.dropWhile isBlank) ++ rest = _ at hrest
    have hhead := List.head?_dropWhile_not isBlank s.toList
    cases hcs : dropBlankEnd (s.toList.dropWhile isBlank) with
    | nil => rfl
    | cons c cs =>
      rw [← hrest, hcs] at hhead
      have hc : isBlank c = false := by simpa using hhead
      simp [hc]
  simp only [trim, String.toList_ofList, hfront]
  rw [dropBlankEnd, dropBlankEnd, List.reverse_reverse, List.dropWhile_idempotent]

theorem trim_eq_empty_iff {s : String} : trim s = "" ↔ squash s = [] := by
  constructor
  · intro h
    rw [← squash_trim, h]
    rfl
  · intro h
    have hblank : s.toList.dropWhile isBlank = [] := by
      rw [List.dropWhile_eq_nil_iff]
      simpa [squash] using h
    rw [trim, hblank]
    rfl

/-- A text has no content exactly if all its characters are blank. -/
theorem content_eq_none_iff {s : String} : content s = none ↔ squash s = [] := by
  rw [← trim_eq_empty_iff]
  simp [content]

theorem content_eq_some {s t : String} (h : content s = some t) : t = trim s ∧ squash s ≠ [] := by
  have hne : squash s ≠ [] := by
    rw [Ne, ← content_eq_none_iff, h]
    exact Option.some_ne_none t
  refine ⟨?_, hne⟩
  simp only [content] at h
  split at h
  · cases h
  · exact (Option.some.inj h).symm

/-- What stands between parts does not matter if it is left out in the end. -/
theorem filter_intercalate {α : Type} {p : α → Bool} {a : α} (ha : p a = false)
    (parts : List (List α)) : ([a].intercalate parts).filter p = parts.flatMap (·.filter p) := by
  induction parts with
  | nil => rfl
  | cons l rest ih =>
    cases rest with
    | nil => simp [List.intercalate]
    | cons l' rest =>
      rw [List.intercalate_cons_cons, List.filter_append, List.filter_append, ih]
      simp [ha]

/-- The lines of a text have all its characters that are not blank. -/
theorem flatMap_squash_trimmedLines (s : String) :
    (trimmedLines s).flatMap squash = squash s := by
  have hnewline : (fun c => !isBlank c) '\n' = false := by decide
  have hlines : ∀ lines : List (List Char),
      (lines.map fun line => String.ofList (dropBlankEnd line)).flatMap squash =
        lines.flatMap (·.filter fun c => !isBlank c) := by
    intro lines
    rw [List.flatMap_map]
    simp only [squash, String.toList_ofList, filter_dropBlankEnd]
  have hsquash : squash s = (dropBlankEnd s.toList).filter fun c => !isBlank c :=
    (filter_dropBlankEnd s.toList).symm
  rw [hsquash, trimmedLines]
  split
  · rename_i hnil
    rw [hnil]
    rfl
  · rw [hlines, ← filter_intercalate (p := fun c => !isBlank c) hnewline, List.intercalate_splitOn]

/-! ## Brackets -/

/-- The kinds of brackets. -/
inductive Bracket where
  | paren
  | brace
  deriving DecidableEq, Repr

namespace Bracket

/-- The character that opens a bracket. -/
def opening : Bracket → Char
  | paren => '('
  | brace => '\x7b'

/-- The character that closes a bracket. -/
def closing : Bracket → Char
  | paren => ')'
  | brace => '\x7d'

/-- With `depth` brackets open before it, how many are open after the text; none
    if it closes more than are open. -/
def level (b : Bracket) : (depth : Nat) → List Char → Option Nat
  | depth, [] => some depth
  | depth, c :: rest =>
    if c = b.opening then b.level (depth + 1) rest
    else if c = b.closing then
      match depth with
      | 0 => none
      | outer + 1 => b.level outer rest
    else b.level depth rest

/-- Whether a character is no bracket of a kind. -/
def Plain (b : Bracket) (c : Char) : Prop :=
  c ≠ b.opening ∧ c ≠ b.closing

variable {b : Bracket} {c : Char} {cs : List Char} {depth depth' : Nat}

theorem closing_ne_opening (b : Bracket) : b.closing ≠ b.opening := by
  cases b <;> decide

theorem char_cases (b : Bracket) (c : Char) : c = b.opening ∨ c = b.closing ∨ b.Plain c := by
  by_cases hopen : c = b.opening
  · exact Or.inl hopen
  · by_cases hclose : c = b.closing
    · exact Or.inr (Or.inl hclose)
    · exact Or.inr (Or.inr ⟨hopen, hclose⟩)

@[simp]
theorem level_opening : b.level depth (b.opening :: cs) = b.level (depth + 1) cs := by
  simp [level]

@[simp]
theorem level_closing_zero : b.level 0 (b.closing :: cs) = none := by
  simp [level, b.closing_ne_opening]

@[simp]
theorem level_closing_succ : b.level (depth + 1) (b.closing :: cs) = b.level depth cs := by
  simp [level, b.closing_ne_opening]

theorem level_plain (hc : b.Plain c) : b.level depth (c :: cs) = b.level depth cs := by
  simp [level, hc.1, hc.2]

theorem level_append (b : Bracket) (depth : Nat) (cs ds : List Char) :
    b.level depth (cs ++ ds) = (b.level depth cs).bind (b.level · ds) := by
  induction cs generalizing depth with
  | nil => rfl
  | cons c rest ih =>
    rw [List.cons_append]
    rcases b.char_cases c with rfl | rfl | hc
    · simp only [level_opening, ih]
    · cases depth with
      | zero => simp only [level_closing_zero, Option.bind_none]
      | succ outer => simp only [level_closing_succ, ih]
    · simp only [level_plain hc, ih]

/-- A text does the same with more brackets open around it. -/
theorem level_add (h : b.level depth cs = some depth') (more : Nat) :
    b.level (depth + more) cs = some (depth' + more) := by
  induction cs generalizing depth with
  | nil =>
    cases h
    rfl
  | cons c rest ih =>
    rcases b.char_cases c with rfl | rfl | hc
    · rw [level_opening] at h ⊢
      rw [← ih h, Nat.add_right_comm]
    · cases depth with
      | zero => simp at h
      | succ outer =>
        rw [level_closing_succ] at h
        rw [Nat.add_right_comm, level_closing_succ, ih h]
    · rw [level_plain hc] at h ⊢
      exact ih h

/-- Characters that are no brackets may be left out. -/
theorem level_filter {p : Char → Bool} (hp : ∀ c, p c = false → b.Plain c) (depth : Nat)
    (cs : List Char) : b.level depth (cs.filter p) = b.level depth cs := by
  induction cs generalizing depth with
  | nil => rfl
  | cons c rest ih =>
    by_cases hc : p c = true
    · rw [List.filter_cons_of_pos hc]
      simp only [level, ih]
    · rw [Bool.not_eq_true] at hc
      rw [List.filter_cons_of_neg (by simp [hc]), level_plain (hp c hc), ih]

theorem level_of_plain (h : ∀ c ∈ cs, b.Plain c) : b.level depth cs = some depth := by
  induction cs with
  | nil => rfl
  | cons c rest ih =>
    rw [level_plain (h c (by simp))]
    exact ih fun c hc => h c (List.mem_cons_of_mem _ hc)

/-- A text in brackets leaves as many open as there were before. -/
theorem level_wrap (h : b.level 0 cs = some 0) (depth : Nat) :
    b.level depth (b.opening :: (cs ++ [b.closing])) = some depth := by
  have hinside := level_add h (depth + 1)
  rw [Nat.zero_add] at hinside
  rw [level_opening, level_append, hinside, Option.bind_some, level_closing_succ]
  rfl

theorem plain_of_isBlank (b : Bracket) (hc : isBlank c = true) : b.Plain c := by
  constructor <;> rintro rfl <;> cases b <;> revert hc <;> decide

theorem plain_of_isSimpleChar (b : Bracket) (hc : isSimpleChar c = true) : b.Plain c := by
  constructor <;> rintro rfl <;> cases b <;> revert hc <;> decide

/-- A bracket of one kind is no bracket of another. -/
theorem eq_or_plain (b b' : Bracket) : b = b' ∨ b.Plain b'.opening ∧ b.Plain b'.closing := by
  cases b <;> cases b' <;> simp only [Plain] <;> decide

end Bracket

/-- A text closes all brackets that it opens and no others, of each kind. -/
def Nested (cs : List Char) : Prop :=
  ∀ b : Bracket, b.level 0 cs = some 0

@[inherit_doc Nested]
def Balanced (s : String) : Prop :=
  Nested s.toList

instance (cs : List Char) : Decidable (Nested cs) :=
  decidable_of_iff (Bracket.paren.level 0 cs = some 0 ∧ Bracket.brace.level 0 cs = some 0)
    ⟨fun h b => by cases b; exacts [h.1, h.2], fun h => ⟨h .paren, h .brace⟩⟩

instance (s : String) : Decidable (Balanced s) :=
  inferInstanceAs (Decidable (Nested s.toList))

section
variable {cs ds : List Char}

theorem nested_nil : Nested [] := fun _ => rfl

theorem Nested.append (hcs : Nested cs) (hds : Nested ds) : Nested (cs ++ ds) := by
  intro b
  rw [Bracket.level_append, hcs b, Option.bind_some, hds b]

theorem Nested.flatMap {α : Type} {f : α → List Char} {items : List α}
    (h : ∀ a ∈ items, Nested (f a)) : Nested (items.flatMap f) := by
  induction items with
  | nil => exact nested_nil
  | cons a rest ih =>
    rw [List.forall_mem_cons] at h
    exact h.1.append (ih h.2)

/-- A text in brackets. -/
theorem Nested.wrap (h : Nested cs) (b' : Bracket) :
    Nested (b'.opening :: (cs ++ [b'.closing])) := by
  intro b
  rcases b.eq_or_plain b' with rfl | ⟨hopen, hclose⟩
  · exact Bracket.level_wrap (h b) 0
  · rw [Bracket.level_plain hopen, Bracket.level_append, h b, Option.bind_some,
      Bracket.level_plain hclose]
    rfl

theorem nested_of_simple (h : cs.all isSimpleChar = true) : Nested cs := fun b =>
  Bracket.level_of_plain fun c hc => b.plain_of_isSimpleChar (List.all_eq_true.1 h c hc)

end

variable {s t : String}

/-- Blanks do not matter for brackets. -/
theorem balanced_iff_squash : Balanced s ↔ Nested (squash s) := by
  refine forall_congr' fun b => ?_
  rw [squash, b.level_filter fun _ hc => b.plain_of_isBlank (by simpa using hc)]

theorem Balanced.append (hs : Balanced s) (ht : Balanced t) : Balanced (s ++ t) := by
  rw [Balanced, String.toList_append]
  exact Nested.append hs ht

theorem all_isSimpleChar_of_isWord {cs : List Char} (h : cs.all isWord = true) :
    cs.all isSimpleChar = true := by
  refine List.all_eq_true.2 fun c hc => ?_
  simp [isSimpleChar, List.all_eq_true.1 h c hc]

theorem balanced_of_isWord (h : s.toList.all isWord = true) : Balanced s :=
  nested_of_simple (all_isSimpleChar_of_isWord h)

theorem balanced_of_isIdent (h : isIdent s = true) : Balanced s :=
  balanced_of_isWord (all_isWord_of_isIdent h)

theorem Balanced.trim (h : Balanced s) : Balanced (trim s) := by
  rwa [balanced_iff_squash, squash_trim, ← balanced_iff_squash]

theorem Balanced.content (h : Balanced s) (hs : content s = some t) : Balanced t := by
  rw [(content_eq_some hs).1]
  exact h.trim

theorem Balanced.parens (h : Balanced s) : Balanced ("(" ++ s ++ ")") := by
  rw [Balanced, String.toList_append, String.toList_append, List.append_assoc]
  exact Nested.wrap h .paren

/-- A text in parentheses, after another. -/
theorem Balanced.group (hs : Balanced s) (ht : Balanced t) : Balanced (s ++ "(" ++ t ++ ")") := by
  have hall := hs.append ht.parens
  rwa [← String.append_assoc, ← String.append_assoc] at hall

theorem Balanced.intercalate {sep : String} (hsep : Balanced sep) {parts : List String}
    (h : ∀ s ∈ parts, Balanced s) : Balanced (sep.intercalate parts) := by
  induction parts with
  | nil => exact nested_nil
  | cons s rest ih =>
    rw [List.forall_mem_cons] at h
    cases rest with
    | nil => exact h.1
    | cons t rest =>
      rw [String.intercalate_cons_cons]
      exact (h.1.append hsep).append (ih h.2)

/-! ## Outside brackets -/

namespace Bracket

/-- The characters outside all brackets of a kind, with `depth` of them open
    before. -/
def outside (b : Bracket) : (depth : Nat) → List Char → List Char
  | _, [] => []
  | depth, c :: rest =>
    if c = b.opening then b.outside (depth + 1) rest
    else if c = b.closing then b.outside (depth - 1) rest
    else if depth = 0 then c :: b.outside depth rest
    else b.outside depth rest

variable {b : Bracket} {c : Char} {cs ds : List Char} {depth depth' : Nat}

@[simp]
theorem outside_opening : b.outside depth (b.opening :: cs) = b.outside (depth + 1) cs := by
  simp [outside]

@[simp]
theorem outside_closing : b.outside depth (b.closing :: cs) = b.outside (depth - 1) cs := by
  simp [outside, b.closing_ne_opening]

theorem outside_plain (hc : b.Plain c) :
    b.outside depth (c :: cs) =
      if depth = 0 then c :: b.outside depth cs else b.outside depth cs := by
  simp [outside, hc.1, hc.2]

theorem mem_of_mem_outside {x : Char} (h : x ∈ b.outside depth cs) : x ∈ cs := by
  induction cs generalizing depth with
  | nil => cases h
  | cons c rest ih =>
    rcases b.char_cases c with rfl | rfl | hc
    · rw [outside_opening] at h
      exact List.mem_cons_of_mem _ (ih h)
    · rw [outside_closing] at h
      exact List.mem_cons_of_mem _ (ih h)
    · rw [outside_plain hc] at h
      split at h
      · rcases List.mem_cons.1 h with rfl | h
        · exact List.mem_cons_self ..
        · exact List.mem_cons_of_mem _ (ih h)
      · exact List.mem_cons_of_mem _ (ih h)

theorem outside_append (h : b.level depth cs = some depth') :
    b.outside depth (cs ++ ds) = b.outside depth cs ++ b.outside depth' ds := by
  induction cs generalizing depth with
  | nil =>
    cases h
    rfl
  | cons c rest ih =>
    rw [List.cons_append]
    rcases b.char_cases c with rfl | rfl | hc
    · rw [level_opening] at h
      rw [outside_opening, outside_opening, ih h]
    · cases depth with
      | zero => simp at h
      | succ outer =>
        rw [level_closing_succ] at h
        rw [outside_closing, outside_closing, Nat.add_sub_cancel, ih h]
    · rw [level_plain hc] at h
      rw [outside_plain hc, outside_plain hc, ih h]
      split <;> rfl

/-- Nothing of a text in brackets is outside of them. -/
theorem outside_succ_eq_nil (h : b.level depth cs = some depth') :
    b.outside (depth + 1) cs = [] := by
  induction cs generalizing depth with
  | nil => rfl
  | cons c rest ih =>
    rcases b.char_cases c with rfl | rfl | hc
    · rw [level_opening] at h
      rw [outside_opening, ih h]
    · cases depth with
      | zero => simp at h
      | succ outer =>
        rw [level_closing_succ] at h
        rw [outside_closing, Nat.add_sub_cancel, ih h]
    · rw [level_plain hc] at h
      rw [outside_plain hc, if_neg (Nat.succ_ne_zero depth), ih h]

/-- Nothing of a text in brackets is outside, nor are they. -/
theorem outside_wrap (h : b.level 0 cs = some 0) :
    b.outside 0 (b.opening :: (cs ++ [b.closing])) = [] := by
  have hinside : b.level 1 cs = some 1 := level_add h 1
  rw [outside_opening, outside_append hinside, outside_succ_eq_nil h, List.nil_append,
    outside_closing]
  rfl

end Bracket

/-! ## Texts that bind as one operand -/

section
variable {c : Char} {cs : List Char} {depth : Nat}

@[simp]
theorem closesLast_opening :
    closesLast depth (Bracket.paren.opening :: cs) = closesLast (depth + 1) cs := by
  simp [closesLast, Bracket.opening]

@[simp]
theorem closesLast_closing_zero :
    closesLast 0 (Bracket.paren.closing :: cs) = cs.isEmpty := by
  simp [closesLast, Bracket.closing]

@[simp]
theorem closesLast_closing_succ :
    closesLast (depth + 1) (Bracket.paren.closing :: cs) = closesLast depth cs := by
  simp [closesLast, Bracket.closing]

theorem closesLast_plain (hc : Bracket.paren.Plain c) :
    closesLast depth (c :: cs) = closesLast depth cs := by
  have hopen : ¬ c = '(' := hc.1
  have hclose : ¬ c = ')' := hc.2
  simp [closesLast, hopen, hclose]

theorem closesLast_concat :
    closesLast depth (cs ++ [')']) = true ↔ Bracket.paren.level depth cs = some 0 := by
  induction cs generalizing depth with
  | nil => cases depth <;> simp [closesLast, Bracket.level]
  | cons c rest ih =>
    rw [List.cons_append]
    rcases Bracket.paren.char_cases c with rfl | rfl | hc
    · rw [closesLast_opening, Bracket.level_opening, ih]
    · cases depth with
      | zero => simp
      | succ outer => rw [closesLast_closing_succ, Bracket.level_closing_succ, ih]
    · rw [closesLast_plain hc, Bracket.level_plain hc, ih]

theorem exists_concat_of_closesLast (h : closesLast depth cs = true) :
    ∃ inside, cs = inside ++ [')'] := by
  induction cs generalizing depth with
  | nil => cases h
  | cons c rest ih =>
    -- what comes after the first character ends as the text does, unless it is empty
    have hrest : (∃ depth', closesLast depth' rest = true) ∨ c = ')' ∧ rest = [] := by
      rcases Bracket.paren.char_cases c with rfl | rfl | hc
      · exact Or.inl ⟨_, closesLast_opening ▸ h⟩
      · cases depth with
        | zero => exact Or.inr ⟨rfl, by simpa using h⟩
        | succ outer => exact Or.inl ⟨_, closesLast_closing_succ ▸ h⟩
      · exact Or.inl ⟨_, closesLast_plain hc ▸ h⟩
    rcases hrest with ⟨depth', hrest⟩ | ⟨rfl, rfl⟩
    · obtain ⟨inside, rfl⟩ := ih hrest
      exact ⟨c :: inside, rfl⟩
    · exact ⟨[], rfl⟩

/-- **A text binds as one operand** if it is simple, or if it is a group after a
    simple text, which may be empty. -/
theorem isAtomic_iff : isAtomic cs = true ↔ isSimple cs = true ∨
    ∃ callee inside, cs = callee ++ '(' :: (inside ++ [')']) ∧ callee.all isSimpleChar = true ∧
      Bracket.paren.level 0 inside = some 0 := by
  rw [isAtomic, Bool.or_eq_true]
  refine or_congr_right ?_
  constructor
  · intro h
    have hhead := List.head?_dropWhile_not (· != '(') cs
    have hparts := List.takeWhile_append_dropWhile (p := (· != '(')) (l := cs)
    split at h
    · cases h
    · rename_i c rest hrest
      rw [hrest] at hhead hparts
      have hc : c = '(' := by simpa using hhead
      subst hc
      rw [Bool.and_eq_true] at h
      obtain ⟨inside, rfl⟩ := exists_concat_of_closesLast h.2
      exact ⟨_, inside, hparts.symm, h.1, closesLast_concat.1 h.2⟩
  · rintro ⟨callee, inside, rfl, hcallee, hinside⟩
    -- a simple text has no parenthesis, so the first one opens the group
    have hopen : ∀ c ∈ callee, (c != '(') = true := by
      intro c hc
      have hplain := Bracket.paren.plain_of_isSimpleChar (List.all_eq_true.1 hcallee c hc)
      exact bne_iff_ne.2 hplain.1
    rw [List.dropWhile_append_of_pos hopen, List.takeWhile_append_of_pos hopen]
    simp [hcallee, closesLast_concat.2 hinside]

end

/-- Outside its parentheses a text has only characters of names, numbers and
    member accesses, so no operator around it can come between them. -/
def Tight (s : String) : Prop :=
  ∀ c ∈ Bracket.paren.outside 0 s.toList, isSimpleChar c = true

instance (s : String) : Decidable (Tight s) :=
  decidable_of_iff ((Bracket.paren.outside 0 s.toList).all isSimpleChar = true) List.all_eq_true

theorem tight_of_simple (h : s.toList.all isSimpleChar = true) : Tight s :=
  fun c hc => List.all_eq_true.1 h c (Bracket.mem_of_mem_outside hc)

theorem tight_of_isWord (h : s.toList.all isWord = true) : Tight s :=
  tight_of_simple (all_isSimpleChar_of_isWord h)

/-- **A text that binds as one operand** has only characters of names, numbers
    and member accesses outside its parentheses. -/
theorem tight_of_isAtomic (h : isAtomic s.toList = true) : Tight s := by
  rcases isAtomic_iff.1 h with h | ⟨callee, inside, hs, hcallee, hinside⟩
  · rw [isSimple, Bool.and_eq_true] at h
    exact tight_of_simple h.2
  · intro c hc
    -- only what is in front of the parenthesis is outside of it
    have hgroup : Bracket.paren.outside 0 ('(' :: (inside ++ [')'])) = [] :=
      Bracket.outside_wrap hinside
    rw [hs, Bracket.outside_append (nested_of_simple hcallee .paren), hgroup,
      List.append_nil] at hc
    exact List.all_eq_true.1 hcallee c (Bracket.mem_of_mem_outside hc)

theorem tight_group (h : Balanced s) : Tight ("(" ++ s ++ ")") := by
  have hgroup : Bracket.paren.outside 0 ('(' :: (s.toList ++ [')'])) = [] :=
    Bracket.outside_wrap (h .paren)
  have htext : ("(" ++ s ++ ")").toList = '(' :: (s.toList ++ [')']) := by simp
  intro c hc
  rw [htext, hgroup] at hc
  cases hc

theorem Tight.append (hb : Balanced s) (hs : Tight s) (ht : Tight t) : Tight (s ++ t) := by
  intro c hc
  rw [String.toList_append, Bracket.outside_append (hb .paren), List.mem_append] at hc
  exact hc.elim (hs c) (ht c)

end Text

end Shading
