/-
  Names that a compilation makes up.

  * `Text.isIdent`: the texts `[A-Za-z_][A-Za-z0-9_]*`.  Whatever the author
    calls a node, the name made from it is one (`isIdent_baseName`,
    `isIdent_resourceName`).
  * `freshName_not_taken`: the search for a suffix ends at a name that is not
    taken, for a table has too few names to take all candidates.
  * `freshName_eq_iff`: the name found is the one that is not taken and that the
    table offers (`Offers`): all candidates before it are taken.
-/
import Mathlib.Data.List.Nodup
import Mathlib.Data.List.Perm.Subperm
import Shading.Compiler

namespace Shading

namespace Text

/-- Whether a text has the form `[A-Za-z_][A-Za-z0-9_]*`. -/
def isIdent (s : String) : Bool :=
  match s.toList with
  | [] => false
  | c :: rest => (c.isAlpha || c == '_') && rest.all fun c => c.isAlphanum || c == '_'

theorem isIdent_ofList_cons (c : Char) (cs : List Char) :
    isIdent (String.ofList (c :: cs)) = ((c.isAlpha || c == '_') && cs.all isWord) := by
  simp only [isIdent, String.toList_ofList]
  rfl

theorem ne_empty_of_isIdent {s : String} (h : isIdent s) : s ≠ "" := by
  rintro rfl
  simp [isIdent] at h

theorem all_isWord_of_isIdent {s : String} (h : isIdent s) : s.toList.all isWord = true := by
  unfold isIdent at h
  split at h
  · cases h
  · rename_i c rest hc
    rw [hc, List.all_cons]
    simp only [Bool.and_eq_true] at h ⊢
    refine ⟨?_, h.2⟩
    have hfirst := h.1
    simp only [isWord, Char.isAlphanum, Bool.or_eq_true] at hfirst ⊢
    exact hfirst.imp Or.inl id

/-- Of the characters of an identifier only digits may not come first. -/
theorem isWord_first {c : Char} (hw : isWord c) (hd : c.isDigit = false) :
    (c.isAlpha || c == '_') = true := by
  simpa [isWord, Char.isAlphanum, hd] using hw

theorem all_isWord_map (cs : List Char) :
    (cs.map fun c => if isWord c then c else '_').all isWord = true := by
  rw [List.all_map, List.all_eq_true]
  intro c _
  by_cases hc : isWord c
  · simp [hc]
  · simp only [Function.comp_apply, hc, Bool.false_eq_true, if_false]; decide

theorem isIdent_identChars (cs : List Char) : isIdent (String.ofList (identChars cs)) := by
  have hall := all_isWord_map cs
  unfold identChars
  split
  · decide
  · rename_i c rest hcs
    rw [hcs, List.all_cons, Bool.and_eq_true] at hall
    split
    · rw [isIdent_ofList_cons, List.all_cons, hall.1, hall.2]; decide
    · rename_i hd
      rw [isIdent_ofList_cons, isWord_first hall.1 (by simpa using hd), hall.2]; rfl

/-- **Whatever a node is called**, the name that its variable asks for is an
    identifier. -/
theorem isIdent_baseName (name fallback : String) : isIdent (baseName name fallback) := by
  unfold baseName
  split
  · exact isIdent_identChars _
  · exact isIdent_identChars _

theorem isIdent_append {s t : String} (hs : isIdent s) (ht : t.toList.all isWord = true) :
    isIdent (s ++ t) := by
  unfold isIdent at hs ⊢
  rw [String.toList_append]
  split at hs
  · cases hs
  · rename_i c rest hc
    rw [hc]
    simp only [Bool.and_eq_true, List.cons_append, List.all_append] at hs ⊢
    exact ⟨hs.1, hs.2, ht⟩

theorem isWord_of_mem_toDigits {k : Nat} {c : Char} (h : c ∈ Nat.toDigits 10 k) :
    isWord c = true := by
  have hd : c.isDigit = true := Nat.isDigit_of_mem_toDigits (by decide) (by decide) h
  simp [isWord, Char.isAlphanum, hd]

theorem all_isWord_numeral (k : Nat) : (toString k).toList.all isWord = true := by
  rw [Nat.toString_eq_ofList_toDigits, String.toList_ofList, List.all_eq_true]
  intro c hc
  exact isWord_of_mem_toDigits hc

/-- Different numbers are written differently. -/
theorem numeral_inj {i j : Nat} (h : toString i = toString j) : i = j := by
  have hd := congrArg (fun s => Nat.ofDigitChars 10 s.toList 0) h
  simpa [Nat.toString_eq_ofList_toDigits] using hd

end Text

open Text

theorem isIdent_resourceName (word : String) (hw : isIdent word) (n : Node) :
    isIdent (word ++ Compilation.resourceName n) := by
  refine isIdent_append hw (all_isWord_of_isIdent ?_)
  unfold Compilation.resourceName
  split
  · decide
  · exact isIdent_identChars _

namespace SymbolTable

/-! ## Names taken -/

@[simp]
theorem taken_claim (t : SymbolTable) (a b : String) :
    (t.claim a).taken b = (a == b || t.taken b) := by
  simp only [claim, taken, Std.ExtTreeSet.contains_insert]
  by_cases h : a = b
  · simp [h]
  · have : (compare a b == Ordering.eq) = false := by simpa using h
    simp [this, h]

theorem taken_claimAll (t : SymbolTable) (names : List String) (b : String) :
    (t.claimAll names).taken b = (names.contains b || t.taken b) := by
  unfold claimAll
  induction names generalizing t with
  | nil => simp
  | cons a rest ih =>
    rw [List.foldl_cons, ih, taken_claim, List.contains_cons]
    rw [← Bool.or_assoc, Bool.or_comm (rest.contains b), show (a == b) = (b == a) from BEq.comm]

@[simp]
theorem taken_addOperation (t : SymbolTable) (o : Operation) (b : String) :
    (t.addOperation o).taken b = ((!o.name.isEmpty && o.name == b) || t.taken b) := by
  unfold addOperation
  by_cases h : o.name.isEmpty
  · simp only [h]; rfl
  · simp only [h, Bool.false_eq_true, if_false, taken_claim, Bool.not_false, Bool.true_and]; rfl

/-! ## Fresh names -/

/-- The suffix found is the first in its range that makes a name not taken. -/
theorem freeSuffix_spec (t : SymbolTable) (base : String) (fuel k : Nat) :
    k ≤ t.freeSuffix base fuel k ∧ t.freeSuffix base fuel k ≤ k + fuel ∧
      (∀ j, k ≤ j → j < t.freeSuffix base fuel k → t.taken (base ++ toString j) = true) ∧
      (t.freeSuffix base fuel k < k + fuel →
        t.taken (base ++ toString (t.freeSuffix base fuel k)) = false) := by
  induction fuel generalizing k with
  | zero =>
    refine ⟨Nat.le_refl _, Nat.le_refl _, fun j h1 h2 => ?_, fun h => by simp [freeSuffix] at h⟩
    simp only [freeSuffix] at h2
    omega
  | succ fuel ih =>
    simp only [freeSuffix]
    split
    · rename_i htaken
      obtain ⟨h1, h2, h3, h4⟩ := ih (k + 1)
      refine ⟨by omega, by omega, fun j hj hlt => ?_, fun h => h4 (by omega)⟩
      rcases Nat.eq_or_lt_of_le hj with rfl | hj
      · exact htaken
      · exact h3 j hj hlt
    · rename_i hfree
      exact ⟨Nat.le_refl _, by omega, fun j h1 h2 => by omega, fun _ => by simpa using hfree⟩

/-- The candidates for a name: the base itself and the base with each of the
    first `count` numbers. -/
def candidates (base : String) (count : Nat) : List String :=
  base :: (List.range count).map fun k => base ++ toString k

theorem append_numeral_injective (base : String) :
    Function.Injective fun k : Nat => base ++ toString k :=
  fun _ _ h => numeral_inj ((String.append_right_inj base).1 h)

theorem candidates_nodup (base : String) (count : Nat) : (candidates base count).Nodup := by
  unfold candidates
  rw [List.nodup_cons]
  constructor
  · rw [List.mem_map]
    rintro ⟨k, -, hk⟩
    have hnil : toString k = "" :=
      (String.append_right_inj base).1 (by rw [hk, String.append_empty])
    rw [Nat.toString_eq_ofList_toDigits] at hnil
    have : Nat.toDigits 10 k = [] := by simpa using congrArg String.toList hnil
    exact Nat.toDigits_ne_nil this
  · exact List.nodup_range.map (append_numeral_injective base)

/-- If a name and all its candidates with a number below `k` are taken, there are
    more than `k` names. -/
theorem lt_size_of_taken {t : SymbolTable} {base : String} (hbase : t.taken base = true) {k : Nat}
    (h : ∀ j < k, t.taken (base ++ toString j) = true) : k < t.identifiers.size := by
  have hsub : candidates base k ⊆ t.identifiers.toList := by
    intro name hname
    have htaken : t.taken name = true := by
      rcases List.mem_cons.1 hname with rfl | hname
      · exact hbase
      · obtain ⟨j, hj, rfl⟩ := List.mem_map.1 hname
        exact h j (List.mem_range.1 hj)
    rw [Std.ExtTreeSet.mem_toList]
    exact Std.ExtTreeSet.contains_iff_mem.1 htaken
  have hle := ((candidates_nodup base k).subperm hsub).length_le
  rw [Std.ExtTreeSet.length_toList] at hle
  simp only [candidates, List.length_cons, List.length_map, List.length_range] at hle
  exact hle

/-- With as many numbers to try as there are names, the search for a suffix finds
    one. -/
theorem taken_freeSuffix {t : SymbolTable} {base : String} (hbase : t.taken base = true)
    {fuel : Nat} (hfuel : t.identifiers.size ≤ fuel) :
    t.taken (base ++ toString (t.freeSuffix base fuel 0)) = false := by
  obtain ⟨-, -, htaken, hfree⟩ := t.freeSuffix_spec base fuel 0
  have hlt := lt_size_of_taken hbase fun j hj => htaken j (Nat.zero_le j) hj
  exact hfree (by omega)

/-- **A fresh name is not taken.** -/
theorem freshName_not_taken (t : SymbolTable) (base : String) :
    t.taken (t.freshName base) = false := by
  unfold freshName
  split
  · rename_i hbase
    exact taken_freeSuffix hbase (Nat.le_refl _)
  · rename_i hbase
    simpa using hbase

theorem freshName_of_not_taken {t : SymbolTable} {base : String} (h : t.taken base = false) :
    t.freshName base = base := by
  simp [freshName, h]

/-- A candidate for a name is offered if all candidates before it are taken. -/
def Offers (t : SymbolTable) (base name : String) : Prop :=
  name = base ∨ ∃ k : Nat, name = base ++ toString k ∧ t.taken base = true ∧
    ∀ j < k, t.taken (base ++ toString j) = true

theorem offers_freshName (t : SymbolTable) (base : String) : t.Offers base (t.freshName base) := by
  unfold freshName
  split
  · rename_i hbase
    obtain ⟨-, -, htaken, -⟩ := t.freeSuffix_spec base t.identifiers.size 0
    exact Or.inr ⟨_, rfl, hbase, fun j hj => htaken j (Nat.zero_le j) hj⟩
  · exact Or.inl rfl

/-- **The name found** is the candidate that is offered and not taken. -/
theorem freshName_eq_iff {t : SymbolTable} {base name : String} :
    t.freshName base = name ↔ t.taken name = false ∧ t.Offers base name := by
  constructor
  · rintro rfl
    exact ⟨t.freshName_not_taken base, t.offers_freshName base⟩
  · rintro ⟨hfree, rfl | ⟨k, rfl, hbase, hbefore⟩⟩
    · exact freshName_of_not_taken hfree
    · have hfound := t.freshName_not_taken base
      rcases t.offers_freshName base with hsame | ⟨i, hi, -, hskipped⟩
      · rw [hsame, hbase] at hfound
        cases hfound
      · rw [hi] at hfound ⊢
        -- two numbers at which the search ends are the same
        rcases Nat.lt_trichotomy i k with hlt | rfl | hlt
        · rw [hbefore i hlt] at hfound
          cases hfound
        · rfl
        · rw [hskipped k hlt] at hfree
          cases hfree

/-- A fresh name is an identifier if it is made from one. -/
theorem isIdent_freshName (t : SymbolTable) {base : String} (h : isIdent base) :
    isIdent (t.freshName base) := by
  unfold freshName
  split
  · exact isIdent_append h (all_isWord_numeral _)
  · exact h

end SymbolTable

end Shading
