/-
  The search for a number that makes a name free.

  * `SymbolTable.Retries`: one turn of the search: a number makes a name that is
    taken, and the next number is tried.
  * `wellFounded_retries`: no search goes on for ever, for the names taken are
    finitely many and different numbers make different names.
  * `retries_iff`: the search gets to a number exactly if all before it make names
    that are taken.
  * `freshName_least`: so it ends at the least number that makes a name that is not.
-/
import Mathlib.Data.Set.Finite.Lattice
import Mathlib.Logic.Relation
import Shading.Proofs.Names

namespace Shading

namespace SymbolTable

variable {t : SymbolTable} {base : String} {j k : Nat}

/-- One turn of the search: the name with this number is taken, so the next number
    is tried. -/
def Retries (t : SymbolTable) (base : String) (k k' : Nat) : Prop :=
  t.taken (base ++ toString k) = true ∧ k' = k + 1

/-! ## The search ends -/

theorem finite_taken (t : SymbolTable) : {name | t.taken name = true}.Finite := by
  refine (List.finite_toSet t.identifiers.toList).subset fun name hname => ?_
  exact Std.ExtTreeSet.mem_toList.2 (Std.ExtTreeSet.contains_iff_mem.1 hname)

/-- From some number on, no number makes a name that is taken. -/
theorem exists_forall_taken_le (t : SymbolTable) (base : String) :
    ∃ last, ∀ k : Nat, t.taken (base ++ toString k) = true → k ≤ last := by
  have hfinite := t.finite_taken.preimage (append_numeral_injective base).injOn
  obtain ⟨last, hlast⟩ := hfinite.bddAbove
  exact ⟨last, fun k hk => hlast hk⟩

/-- No search goes on for ever, whatever number it starts from. -/
theorem wellFounded_retries (t : SymbolTable) (base : String) :
    WellFounded fun k' k => t.Retries base k k' := by
  obtain ⟨last, hlast⟩ := t.exists_forall_taken_le base
  refine Subrelation.wf ?_ (measure fun k => last + 1 - k).wf
  rintro k' k ⟨htaken, rfl⟩
  have hle : k ≤ last := hlast k htaken
  change last + 1 - (k + 1) < last + 1 - k
  omega

/-! ## Where it gets to -/

/-- **The search gets to a number** exactly if all numbers before it make names that
    are taken. -/
theorem retries_iff : Relation.ReflTransGen (t.Retries base) 0 k ↔
    ∀ j < k, t.taken (base ++ toString j) = true := by
  constructor
  · intro h
    induction h with
    | refl => exact fun j hj => absurd hj (Nat.not_lt_zero j)
    | tail _ hturn ih =>
      obtain ⟨htaken, rfl⟩ := hturn
      exact Nat.forall_lt_succ_right.2 ⟨ih, htaken⟩
  · intro h
    induction k with
    | zero => exact .refl
    | succ k ih =>
      obtain ⟨hbefore, htaken⟩ := Nat.forall_lt_succ_right.1 h
      exact (ih hbefore).tail ⟨htaken, rfl⟩

/-- If the base is taken, the search with enough numbers to try finds the least
    that makes a name that is not. -/
theorem isLeast_freeSuffix (hbase : t.taken base = true) {fuel : Nat}
    (hfuel : t.identifiers.size ≤ fuel) :
    IsLeast {j : Nat | t.taken (base ++ toString j) = false} (t.freeSuffix base fuel 0) := by
  obtain ⟨-, -, htaken, -⟩ := t.freeSuffix_spec base fuel 0
  refine ⟨taken_freeSuffix hbase hfuel, fun j hj => ?_⟩
  have hfree : t.taken (base ++ toString j) = false := hj
  by_contra hlt
  rw [htaken j (Nat.zero_le j) (Nat.lt_of_not_le hlt)] at hfree
  cases hfree

/-- The numbers before the least that makes a name not taken are those that make
    names that are. -/
theorem forall_lt_taken_iff (h : IsLeast {j : Nat | t.taken (base ++ toString j) = false} k) :
    (∀ i < j, t.taken (base ++ toString i) = true) ↔ j ≤ k := by
  constructor
  · intro htaken
    by_contra hlt
    have hk := htaken k (Nat.lt_of_not_le hlt)
    rw [h.1] at hk
    cases hk
  · intro hle i hi
    by_contra hfree
    have hki : k ≤ i := h.2 (by simpa using hfree)
    omega

/-- **The name found is the first of the candidates that is not taken.**  The search
    for a suffix ends, whatever number it starts from.  The name is the base if that
    is not taken, and else the base with the least number that makes a name that is
    not; there are more names taken than that number.  The search goes through the
    numbers up to it and no others, and any bound on it that is not below the number
    of names makes no difference. -/
theorem freshName_least (t : SymbolTable) (base : String) :
    (WellFounded fun k' k => t.Retries base k k') ∧
    (t.taken base = false → t.freshName base = base) ∧
    (t.taken base = true → ∃ k : Nat, t.freshName base = base ++ toString k ∧
      IsLeast {j : Nat | t.taken (base ++ toString j) = false} k ∧ k < t.identifiers.size ∧
      (∀ j, Relation.ReflTransGen (t.Retries base) 0 j ↔ j ≤ k) ∧
      ∀ fuel, t.identifiers.size ≤ fuel → t.freeSuffix base fuel 0 = k) ∧
    t.taken (t.freshName base) = false := by
  refine ⟨t.wellFounded_retries base, freshName_of_not_taken, fun hbase => ?_,
    t.freshName_not_taken base⟩
  have hleast := isLeast_freeSuffix hbase (Nat.le_refl _)
  refine ⟨t.freeSuffix base t.identifiers.size 0, ?_, hleast, ?_, ?_, ?_⟩
  · rw [freshName, if_pos hbase]
  · exact lt_size_of_taken hbase ((forall_lt_taken_iff hleast).2 (Nat.le_refl _))
  · exact fun j => retries_iff.trans (forall_lt_taken_iff hleast)
  · exact fun fuel hfuel => (isLeast_freeSuffix hbase hfuel).unique hleast

/-- A number in between may be free. -/
example : (empty.claimAll ["v", "v0", "v2"]).freshName "v" = "v1" := by
  decide +kernel

end SymbolTable

end Shading
