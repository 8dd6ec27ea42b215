/-
  Texts that bind as one operand, and texts made so.

  * `Bracket.Paired`: counted from the front, a text never closes more brackets
    than it opens, and in the end as many.  This is what `Bracket.level` finds
    out (`level_eq_some_iff`).
  * `scanGroup`: the search for the parenthesis that ends a group, with an integer
    for the number of those open.  It finds what `closesLast` finds, and its count
    never goes below zero (`scanGroup_opened`).
  * `atomic_texts_exact`: the texts that bind as one operand are the simple ones
    and the groups, and parentheses make one of any text that pairs its own.
-/
import Shading.Expr
import Shading.Proofs.Texts

namespace Shading

namespace Text

/-! ## Brackets in pairs -/

namespace Bracket

variable {b : Bracket} {c : Char} {cs : List Char} {depth depth' : Nat}

/-- None of the beginnings of a text closes more brackets of a kind than it
    opens, and the whole text closes as many. -/
def Paired (b : Bracket) (cs : List Char) : Prop :=
  (∀ p, p <+: cs → p.count b.closing ≤ p.count b.opening) ∧
    cs.count b.opening = cs.count b.closing

theorem forall_prefix_cons {P : List Char → Prop} :
    (∀ p, p <+: c :: cs → P p) ↔ P [] ∧ ∀ p, p <+: cs → P (c :: p) := by
  constructor
  · intro h
    refine ⟨h [] List.nil_prefix, fun p hp => ?_⟩
    exact h (c :: p) (List.cons_prefix_cons.2 ⟨rfl, hp⟩)
  · rintro ⟨hnil, hcons⟩ p hp
    rcases List.prefix_cons_iff.1 hp with rfl | ⟨p', rfl, hp'⟩
    · exact hnil
    · exact hcons p' hp'

/-- The brackets that a text leaves open are those open before and those that it
    opens, less those that it closes, if there are enough at each place. -/
theorem level_eq_some_iff : b.level depth cs = some depth' ↔
    (∀ p, p <+: cs → p.count b.closing ≤ depth + p.count b.opening) ∧
      depth + cs.count b.opening = depth' + cs.count b.closing := by
  induction cs generalizing depth with
  | nil => simp [level]
  | cons c rest ih =>
    rw [forall_prefix_cons]
    rcases b.char_cases c with rfl | rfl | hc
    · simp only [level_opening, ih, List.count_cons_self,
        List.count_cons_of_ne b.closing_ne_opening.symm]
      grind
    · simp only [List.count_cons_self, List.count_cons_of_ne b.closing_ne_opening]
      cases depth with
      | zero =>
        -- the first character alone closes one too many
        simp only [level_closing_zero, reduceCtorEq, false_iff]
        rintro ⟨⟨-, hrest⟩, -⟩
        exact absurd (hrest [] List.nil_prefix) (by simp)
      | succ outer =>
        rw [level_closing_succ, ih]
        grind
    · simp only [level_plain hc, ih, List.count_cons_of_ne hc.1, List.count_cons_of_ne hc.2]
      grind

theorem paired_iff_level : b.Paired cs ↔ b.level 0 cs = some 0 := by
  simp only [level_eq_some_iff, Paired, Nat.zero_add]

instance (b : Bracket) (cs : List Char) : Decidable (b.Paired cs) :=
  decidable_of_iff (b.level 0 cs = some 0) paired_iff_level.symm

end Bracket

/-! ## The end of a group -/

/-- What a search for the end of a group comes to: the values that its count of
    open parentheses takes, and whether the text ends with the group. -/
structure GroupScan where
  counts : List Int
  atEnd : Bool

/-- The search that has come to a count before. -/
def GroupScan.after (count : Int) (s : GroupScan) : GroupScan :=
  { s with counts := count :: s.counts }

/-- The search for the parenthesis that ends a group, with `count` of them open
    before the text.  It goes on until a `)` brings the count to zero; nothing else
    keeps the count from going below. -/
def scanGroup : (count : Int) → List Char → GroupScan
  | _, [] => ⟨[], false⟩
  | count, c :: rest =>
    if c = '(' then (scanGroup (count + 1) rest).after (count + 1)
    else if c = ')' then
      if count - 1 = 0 then ⟨[0], rest.isEmpty⟩
      else (scanGroup (count - 1) rest).after (count - 1)
    else scanGroup count rest

section
variable {c : Char} {cs : List Char} {count : Int}

theorem scanGroup_opening : scanGroup count (Bracket.paren.opening :: cs) =
    (scanGroup (count + 1) cs).after (count + 1) := by
  simp [scanGroup, Bracket.opening]

theorem scanGroup_closing_one :
    scanGroup 1 (Bracket.paren.closing :: cs) = ⟨[0], cs.isEmpty⟩ := by
  simp [scanGroup, Bracket.closing]

theorem scanGroup_closing (h : count - 1 ≠ 0) : scanGroup count (Bracket.paren.closing :: cs) =
    (scanGroup (count - 1) cs).after (count - 1) := by
  simp [scanGroup, Bracket.closing, h]

theorem scanGroup_plain (hc : Bracket.paren.Plain c) :
    scanGroup count (c :: cs) = scanGroup count cs := by
  have hopen : ¬ c = '(' := hc.1
  have hclose : ¬ c = ')' := hc.2
  simp [scanGroup, hopen, hclose]

end

/-- The count is never negative. -/
def GroupScan.Nonnegative (s : GroupScan) : Prop :=
  ∀ count ∈ s.counts, 0 ≤ count

theorem GroupScan.Nonnegative.after {s : GroupScan} (h : s.Nonnegative) {count : Int}
    (hc : 0 ≤ count) : (s.after count).Nonnegative :=
  List.forall_mem_cons.2 ⟨hc, h⟩

/-- With a parenthesis open, the search finds whether the last character closes
    the outermost of those open, and its count does not go below zero. -/
theorem scanGroup_opened {count : Int} {depth : Nat} (h : count = depth + 1) (cs : List Char) :
    (scanGroup count cs).atEnd = closesLast depth cs ∧ (scanGroup count cs).Nonnegative := by
  -- the count is one above the depth, so it is zero only where the depth cannot go down
  induction cs generalizing count depth with
  | nil => exact ⟨rfl, fun _ hcount => nomatch hcount⟩
  | cons c rest ih =>
    rcases Bracket.paren.char_cases c with rfl | rfl | hc
    · have hnext : count + 1 = (depth + 1 : Nat) + 1 := by omega
      obtain ⟨hend, hcounts⟩ := ih hnext
      rw [scanGroup_opening, closesLast_opening]
      exact ⟨hend, hcounts.after (by omega)⟩
    · cases depth with
      | zero =>
        obtain rfl : count = 1 := by omega
        rw [scanGroup_closing_one, closesLast_closing_zero]
        exact ⟨rfl, by simp [GroupScan.Nonnegative]⟩
      | succ outer =>
        have hnext : count - 1 = outer + 1 := by omega
        obtain ⟨hend, hcounts⟩ := ih hnext
        rw [scanGroup_closing (by omega), closesLast_closing_succ]
        exact ⟨hend, hcounts.after (by omega)⟩
    · rw [scanGroup_plain hc, closesLast_plain hc]
      exact ih h

/-- The search from a parenthesis on. -/
theorem scanGroup_start (cs : List Char) :
    (scanGroup 0 ('(' :: cs)).atEnd = closesLast 0 cs ∧ (scanGroup 0 ('(' :: cs)).Nonnegative := by
  have hopening : scanGroup 0 ('(' :: cs) = (scanGroup 1 cs).after 1 := scanGroup_opening
  have hone : (1 : Int) = (0 : Nat) + 1 := rfl
  obtain ⟨hend, hcounts⟩ := scanGroup_opened hone cs
  rw [hopening]
  exact ⟨hend, hcounts.after (by decide)⟩

/-! ## Atoms -/

/-- The characters `[A-Za-z0-9_.]`. -/
def OperandChar (c : Char) : Prop :=
  'A' ≤ c ∧ c ≤ 'Z' ∨ 'a' ≤ c ∧ c ≤ 'z' ∨ '0' ≤ c ∧ c ≤ '9' ∨ c = '_' ∨ c = '.'

theorem isSimpleChar_iff {c : Char} : isSimpleChar c = true ↔ OperandChar c := by
  have hupper : c.isUpper = decide ('A' ≤ c ∧ c ≤ 'Z') := rfl
  have hlower : c.isLower = (decide ('a' ≤ c) && decide (c ≤ 'z')) := rfl
  have hdigit : c.isDigit = (decide ('0' ≤ c) && decide (c ≤ '9')) := rfl
  have hchar : isSimpleChar c = (c.isUpper || c.isLower || c.isDigit || c == '_' || c == '.') := rfl
  rw [hchar, hupper, hlower, hdigit, OperandChar]
  simp [or_assoc]

theorem all_isSimpleChar_iff {cs : List Char} :
    cs.all isSimpleChar = true ↔ ∀ c ∈ cs, OperandChar c := by
  simp only [List.all_eq_true, isSimpleChar_iff]

variable {s : String}

theorem toList_group (callee inside : String) :
    (callee ++ "(" ++ inside ++ ")").toList =
      callee.toList ++ '(' :: (inside.toList ++ [')']) := by
  simp

theorem isAtomic_toList_iff : isAtomic s.toList = true ↔
    (s ≠ "" ∧ ∀ c ∈ s.toList, OperandChar c) ∨
      ∃ callee inside : String, s = callee ++ "(" ++ inside ++ ")" ∧
        (∀ c ∈ callee.toList, OperandChar c) ∧ Bracket.paren.Paired inside.toList := by
  simp only [isAtomic_iff, isSimple, Bool.and_eq_true, all_isSimpleChar_iff,
    Bracket.paired_iff_level]
  refine or_congr ?_ ?_
  · simp
  · constructor
    · rintro ⟨callee, inside, hs, hcallee, hinside⟩
      refine ⟨String.ofList callee, String.ofList inside, ?_, by simpa, by simpa⟩
      rw [← String.toList_inj, toList_group, hs, String.toList_ofList, String.toList_ofList]
    · rintro ⟨callee, inside, rfl, hcallee, hinside⟩
      exact ⟨callee.toList, inside.toList, toList_group callee inside, hcallee, hinside⟩

theorem parenthesize_of_isAtomic (h : isAtomic s.toList = true) : parenthesize s = s := by
  rw [parenthesize, if_pos h]

theorem parenthesize_eq_or (s : String) :
    parenthesize s = s ∨ parenthesize s = "(" ++ s ++ ")" := by
  rw [parenthesize]
  split
  · exact Or.inl rfl
  · exact Or.inr rfl

/-- In parentheses, a text that pairs its own binds as one operand. -/
theorem isAtomic_parens (h : Bracket.paren.Paired s.toList) :
    isAtomic ("(" ++ s ++ ")").toList = true := by
  refine isAtomic_toList_iff.2 (Or.inr ⟨"", s, ?_, ?_, h⟩)
  · simp
  · simp

theorem isAtomic_parenthesize (h : Bracket.paren.Paired s.toList) :
    isAtomic (parenthesize s).toList = true := by
  rw [parenthesize]
  split
  · assumption
  · exact isAtomic_parens h

theorem paired_parenthesize (h : Bracket.paren.Paired s.toList) :
    Bracket.paren.Paired (parenthesize s).toList := by
  rcases parenthesize_eq_or s with hs | hs
  · rw [hs]
    exact h
  · rw [Bracket.paired_iff_level] at h ⊢
    have htext := toList_group "" s
    rw [String.empty_append] at htext
    rw [hs, htext]
    exact Bracket.level_wrap h 0

end Text

open Text

/-- As an operand an expression is written in parentheses unless its text binds as
    one operand. -/
theorem Expr.render_operand (x : Expr) : x.operand.render = parenthesize x.render := by
  rw [operand, isAtomic, parenthesize]
  split
  · rfl
  · rfl

/-- **The texts that bind as one operand** are the nonempty texts over
    `[A-Za-z0-9_.]`, and such a text, or none, before a group: an inside that pairs
    its parentheses, in parentheses.  Wherever the search for the end of a group
    starts in a text, its count does not go below zero, and it finds whether the
    group is the last thing in the text.  A text that pairs its parentheses still
    does once it is parenthesized, and then binds as one operand; at most one pair
    of parentheses was added, and none is added again.  It is in this way that the
    operands of expressions are written. -/
theorem Text.atomic_texts_exact (e : String) :
    (Text.isAtomic e.toList = true ↔
      (e ≠ "" ∧ ∀ c ∈ e.toList, OperandChar c) ∨
        ∃ callee inside : String, e = callee ++ "(" ++ inside ++ ")" ∧
          (∀ c ∈ callee.toList, OperandChar c) ∧ Bracket.paren.Paired inside.toList) ∧
    (∀ before rest, e.toList = before ++ '(' :: rest →
      (scanGroup 0 ('(' :: rest)).atEnd = closesLast 0 rest ∧
        ∀ count ∈ (scanGroup 0 ('(' :: rest)).counts, 0 ≤ count) ∧
    (Bracket.paren.Paired e.toList →
      Bracket.paren.Paired (parenthesize e).toList ∧
        Text.isAtomic (parenthesize e).toList = true ∧
        (parenthesize e = e ∨ parenthesize e = "(" ++ e ++ ")") ∧
        parenthesize (parenthesize e) = parenthesize e) ∧
    ∀ x : Expr, x.render = e → x.operand.render = parenthesize e := by
  refine ⟨isAtomic_toList_iff, fun _ rest _ => scanGroup_start rest, fun h => ?_, ?_⟩
  · have hatomic := isAtomic_parenthesize h
    exact ⟨paired_parenthesize h, hatomic, parenthesize_eq_or e, parenthesize_of_isAtomic hatomic⟩
  · rintro x rfl
    exact x.render_operand

/-- Two groups are not one, and parentheses make no operand of a text that does
    not pair its own. -/
example : Bracket.paren.Paired "f(a)(b)".toList ∧ parenthesize "f(a)(b)" = "(f(a)(b))" ∧
    ¬ Bracket.paren.Paired ")(".toList ∧ Text.isAtomic (parenthesize ")(").toList = false := by
  decide +kernel

end Shading
