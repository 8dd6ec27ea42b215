/-
  Numbers in JSON texts.

  `NumeralText n cs` says which characters spell a number.  The scanner takes
  such a text for one number (`NumeralText.reads`), and it takes nothing else
  for one (`exists_number`).
-/
import Shading.Json.Token

namespace Shading.Json

/-! ## Digits -/

theorem isDigit_digitChar : ∀ d : Fin 10, (digitChar d).isDigit = true := by decide

theorem digitOf_digitChar : ∀ d : Fin 10, digitOf (digitChar d) = d := by decide

theorem digitChar_eq_zero : ∀ d : Fin 10, digitChar d = '0' ↔ d.val = 0 := by decide

theorem digitOf_val {c : Char} (h : c.isDigit = true) :
    (digitOf c).val = c.toNat - '0'.toNat := by
  have hle : c.toNat ≤ '9'.toNat := by
    simp only [Char.isDigit, Bool.and_eq_true, decide_eq_true_eq] at h
    exact h.2
  show (c.toNat - '0'.toNat) % 10 = c.toNat - '0'.toNat
  have h₀ : '0'.toNat = 48 := rfl
  have h₉ : '9'.toNat = 57 := rfl
  omega

theorem digitChar_digitOf {c : Char} (h : c.isDigit = true) : digitChar (digitOf c) = c := by
  have hle : '0'.toNat ≤ c.toNat := by
    simp only [Char.isDigit, Bool.and_eq_true, decide_eq_true_eq] at h
    exact h.1
  rw [digitChar, digitOf_val h, Nat.add_sub_cancel' hle, Char.ofNat_toNat]

theorem ne_of_isDigit {c d : Char} (hc : c.isDigit = true) (hd : d.isDigit = false) : c ≠ d := by
  rintro rfl
  rw [hc] at hd
  cases hd
/-! ## The grammar -/

/-- The sign before a number. -/
def signText (negative : Bool) : List Char :=
  if negative then ['-'] else []

/-- The point of a number and the digits after it, if there are any. -/
def fractionText : List (Fin 10) → List Char
  | [] => []
  | d :: ds => '.' :: (d :: ds).map digitChar

/-- The letters before an exponent. -/
def IsMark (c : Char) : Prop :=
  c = 'e' ∨ c = 'E'

/-- The sign of an exponent, which may be left out or written as a plus. -/
inductive ExponentSign : Bool → List Char → Prop
  | none : ExponentSign false []
  | plus : ExponentSign false ['+']
  | minus : ExponentSign true ['-']

/-- The texts of an exponent. -/
inductive ExponentText : Option (Bool × List (Fin 10)) → List Char → Prop
  | none : ExponentText none []
  | some {negative : Bool} {mark : Char} {sign : List Char} (hm : IsMark mark)
      (hs : ExponentSign negative sign) (d : Fin 10) (ds : List (Fin 10)) :
      ExponentText (some (negative, d :: ds)) (mark :: (sign ++ (d :: ds).map digitChar))

/-- The texts of a number.  Its first digit is zero only if it is the only one
    before the point. -/
inductive NumeralText : Numeral → List Char → Prop
  | mk {exponent : Option (Bool × List (Fin 10))} {cs : List Char} (negative : Bool) (d : Fin 10)
      (ds fraction : List (Fin 10)) (hd : d.val = 0 → ds = [])
      (he : ExponentText exponent cs) :
      NumeralText ⟨negative, d :: ds, fraction, exponent⟩
        (signText negative ++ (d :: ds).map digitChar ++ fractionText fraction ++ cs)

/-! ## The scanner, one character at a time -/

namespace Scan

theorem run_found (s : Scan) (found : List Token) (cs : List Char) :
    run s found cs = found.reverse ++ run s [] cs := by
  induction cs generalizing s found with
  | nil => rfl
  | cons c cs ih =>
    simp only [run, List.append_nil]
    rw [ih, ih (s.step c).1 (s.step c).2.reverse]
    simp

theorem run_cons (s : Scan) (c : Char) (cs : List Char) :
    run s [] (c :: cs) = (s.step c).2 ++ run (s.step c).1 [] cs := by
  simp only [run, List.append_nil]
  rw [run_found]
  simp

theorem run_step {s s' : Scan} {c : Char} {ts : List Token} (h : s.step c = (s', ts))
    (cs : List Char) : run s [] (c :: cs) = ts ++ run s' [] cs := by
  rw [run_cons, h]

end Scan

/-! ## Reading numbers -/

namespace NumberScan

/-- The number with some more characters, if they can be part of it. -/
def reads (n : NumberScan) : List Char → Option NumberScan
  | [] => some n
  | c :: cs => (n.next c).bind (·.reads cs)

theorem reads_append {n n' : NumberScan} {cs : List Char} (h : n.reads cs = some n')
    (ds : List Char) : n.reads (cs ++ ds) = n'.reads ds := by
  induction cs generalizing n with
  | nil =>
    cases h
    rfl
  | cons c cs ih =>
    obtain ⟨m, hm, hrest⟩ := Option.bind_eq_some_iff.1 h
    rw [List.cons_append, reads, hm]
    exact ih hrest

theorem run_reads {n n' : NumberScan} {cs : List Char} (h : n.reads cs = some n')
    (rest : List Char) :
    Scan.run (.number n) [] (cs ++ rest) = Scan.run (.number n') [] rest := by
  induction cs generalizing n with
  | nil =>
    cases h
    rfl
  | cons c cs ih =>
    obtain ⟨m, hm, hrest⟩ := Option.bind_eq_some_iff.1 h
    have hstep : (Scan.number n).step c = (.number m, []) := by simp only [Scan.step, hm]
    rw [List.cons_append, Scan.run_step hstep, ih hrest]
    rfl

/-- Digits go to the front of the digits of their part. -/
theorem reads_digits {f : List (Fin 10) → NumberScan}
    (h : ∀ d ds, (f ds).next (digitChar d) = some (f (d :: ds))) (es ds : List (Fin 10)) :
    (f ds).reads (es.map digitChar) = some (f (es.reverse ++ ds)) := by
  induction es generalizing ds with
  | nil => rfl
  | cons e es ih =>
    rw [List.map_cons, reads, h, Option.bind_some, ih, List.reverse_cons, List.append_assoc]
    rfl

theorem reads_fraction {n : NumberScan} (hp : n.place = .zero ∨ n.place = .whole)
    (hf : n.fraction = []) (ds : List (Fin 10)) :
    ∃ n', n.reads (fractionText ds) = some n' ∧
      (n'.place = .zero ∨ n'.place = .whole ∨ n'.place = .fraction) ∧
      n' = { n with place := n'.place, fraction := ds.reverse } := by
  cases ds with
  | nil =>
    refine ⟨n, rfl, ?_, ?_⟩
    · rcases hp with hp | hp
      · exact .inl hp
      · exact .inr (.inl hp)
    · rw [List.reverse_nil, ← hf]
  | cons d ds =>
    have hpoint : n.next '.' = some { n with place := .point } := by
      rcases hp with hp | hp
      · simp [next, hp]
      · have hdigit : '.'.isDigit = false := rfl
        simp [next, hp, hdigit]
    have hfirst : next { n with place := .point } (digitChar d) =
        some { n with place := .fraction, fraction := [d] } := by
      simp only [next, isDigit_digitChar, digitOf_digitChar, if_true]
    have hrest := reads_digits (f := fun es => { n with place := .fraction, fraction := es })
      (fun e es => by simp only [next, isDigit_digitChar, digitOf_digitChar, if_true]) ds [d]
    refine ⟨{ n with place := .fraction, fraction := ds.reverse ++ [d] }, ?_, .inr (.inr rfl), ?_⟩
    · rw [fractionText, reads, hpoint, Option.bind_some, List.map_cons, reads, hfirst,
        Option.bind_some]
      exact hrest
    · rw [List.reverse_cons]

theorem isComplete_of_place {n : NumberScan}
    (h : n.place = .zero ∨ n.place = .whole ∨ n.place = .fraction) : n.isComplete = true := by
  rcases h with h | h | h
  · simp only [isComplete, h]
  · simp only [isComplete, h]
  · simp only [isComplete, h]

theorem next_mark {n : NumberScan} (hp : n.place = .zero ∨ n.place = .whole ∨ n.place = .fraction)
    {c : Char} (hc : IsMark c) : n.next c = some { n with place := .mark } := by
  have hdigit : c.isDigit = false := by
    rcases hc with rfl | rfl
    · rfl
    · rfl
  have hpoint : c ≠ '.' := by
    rcases hc with rfl | rfl
    · decide
    · decide
  have hmark : (c = 'e' || c = 'E') = true := by simpa [IsMark] using hc
  rcases hp with hp | hp | hp
  · simp only [next, hp, hpoint, hmark, if_true, if_false]
  · simp only [next, hp, hdigit, hpoint, hmark, if_true, if_false, Bool.false_eq_true]
  · simp only [next, hp, hdigit, hmark, if_true, if_false, Bool.false_eq_true]

theorem reads_exponent {n : NumberScan}
    (hp : n.place = .zero ∨ n.place = .whole ∨ n.place = .fraction) (he : n.exponent = [])
    (hs : n.exponentNegative = false) {e : Option (Bool × List (Fin 10))} {cs : List Char}
    (h : ExponentText e cs) :
    ∃ n', n.reads cs = some n' ∧ n'.isComplete = true ∧
      n'.numeral = ⟨n.negative, n.whole.reverse, n.fraction.reverse, e⟩ := by
  cases h with
  | none =>
    refine ⟨n, rfl, isComplete_of_place hp, ?_⟩
    simp only [numeral, he, List.isEmpty_nil, if_true]
  | @some negative mark sign hm hsign d ds =>
    -- the digits, from whatever place the sign leaves
    have hdigits {m : NumberScan} (hfirst : m.next (digitChar d) = some { n with
        place := .exponent, exponentNegative := negative, exponent := [d] }) :
        m.reads ((d :: ds).map digitChar) = some { n with
          place := .exponent, exponentNegative := negative, exponent := ds.reverse ++ [d] } := by
      have hrest := reads_digits
        (f := fun es => { n with place := .exponent, exponentNegative := negative, exponent := es })
        (fun e es => by simp only [next, isDigit_digitChar, digitOf_digitChar, if_true]) ds [d]
      rw [List.map_cons, reads, hfirst, Option.bind_some]
      exact hrest
    refine ⟨{ n with
      place := .exponent, exponentNegative := negative, exponent := ds.reverse ++ [d] },
      ?_, rfl, ?_⟩
    · rw [reads, next_mark hp hm, Option.bind_some]
      cases hsign with
      | none =>
        refine hdigits ?_
        have hplus := ne_of_isDigit (isDigit_digitChar d) (d := '+') rfl
        have hminus := ne_of_isDigit (isDigit_digitChar d) (d := '-') rfl
        simp only [next, isDigit_digitChar, digitOf_digitChar, hplus, hminus, if_true, if_false, hs]
      | plus =>
        have hplus : next { n with place := .mark } '+' = some { n with place := .markSign } := by
          simp only [next, if_true]
        rw [List.cons_append, reads, hplus, Option.bind_some]
        refine hdigits ?_
        simp only [next, isDigit_digitChar, digitOf_digitChar, if_true, hs]
      | minus =>
        have hminus : next { n with place := .mark } '-' =
            some { n with place := .markSign, exponentNegative := true } := by
          have hne : '-' ≠ '+' := by decide
          simp only [next, hne, if_true, if_false]
        rw [List.cons_append, reads, hminus, Option.bind_some]
        refine hdigits ?_
        simp only [next, isDigit_digitChar, digitOf_digitChar, if_true]
    · simp [numeral]

end NumberScan

theorem Scan.start_digit {c : Char} (h : c.isDigit = true) :
    start c =
      (.number { place := if c = '0' then .zero else .whole, whole := [digitOf c] }, []) := by
  have hne (d : Char) (hd : d.isDigit = false) : c ≠ d := ne_of_isDigit h hd
  have hspace : isSpace c = false := by
    simp [isSpace, hne ' ' rfl, hne '\n' rfl, hne '\t' rfl, hne '\r' rfl]
  simp only [start, hspace, hne '\x7b' rfl, hne '\x7d' rfl, hne '[' rfl, hne ']' rfl, hne ':' rfl,
    hne ',' rfl, hne '"' rfl, hne 'n' rfl, hne 't' rfl, hne 'f' rfl, hne '-' rfl, h, if_true,
    if_false, Bool.false_eq_true]
  split <;> rfl

namespace NumberScan

/-- The sign and the digits before the point. -/
theorem reads_whole (negative : Bool) (d : Fin 10) (ds : List (Fin 10)) (hd : d.val = 0 → ds = []) :
    ∃ c cs n n', signText negative ++ (d :: ds).map digitChar = c :: cs ∧
      Scan.start c = (.number n, []) ∧ n.reads cs = some n' ∧
      (n'.place = .zero ∨ n'.place = .whole) ∧
      n' = { place := n'.place, negative := negative, whole := (d :: ds).reverse } := by
  -- the digits after the first, which is zero only if it is the only one
  have hrest (b : Bool) : ∃ n',
      reads { place := if digitChar d = '0' then .zero else .whole, negative := b, whole := [d] }
        (ds.map digitChar) = some n' ∧ (n'.place = .zero ∨ n'.place = .whole) ∧
      n' = { place := n'.place, negative := b, whole := (d :: ds).reverse } := by
    by_cases hzero : digitChar d = '0'
    · rw [if_pos hzero, hd ((digitChar_eq_zero d).1 hzero)]
      exact ⟨_, rfl, .inl rfl, rfl⟩
    · rw [if_neg hzero]
      refine ⟨{ place := .whole, negative := b, whole := (d :: ds).reverse }, ?_, .inr rfl, rfl⟩
      rw [List.reverse_cons]
      exact reads_digits (f := fun es => { place := .whole, negative := b, whole := es })
        (fun e es => by simp only [next, isDigit_digitChar, digitOf_digitChar, if_true]) ds [d]
  cases negative with
  | false =>
    obtain ⟨n', hn, hplace, heq⟩ := hrest false
    exact ⟨digitChar d, ds.map digitChar, _, n', rfl, Scan.start_digit (isDigit_digitChar d),
      by rw [digitOf_digitChar]; exact hn, hplace, heq⟩
  | true =>
    obtain ⟨n', hn, hplace, heq⟩ := hrest true
    refine ⟨'-', (d :: ds).map digitChar, { place := .sign, negative := true }, n', rfl, rfl, ?_,
      hplace, heq⟩
    have hfirst : next { place := .sign, negative := true } (digitChar d) =
        some { place := if digitChar d = '0' then .zero else .whole, negative := true,
               whole := [d] } := by
      by_cases hzero : digitChar d = '0'
      · simp only [next, hzero, if_true]
        rw [← hzero, digitOf_digitChar]
      · simp only [next, isDigit_digitChar, digitOf_digitChar, hzero, if_true, if_false]
    rw [List.map_cons, reads, hfirst, Option.bind_some]
    exact hn

end NumberScan

/-- The scanner takes the text of a number for one number. -/
theorem NumeralText.reads {n : Numeral} {cs : List Char} (h : NumeralText n cs) :
    ∃ c rest m m', cs = c :: rest ∧ Scan.start c = (.number m, []) ∧ m.reads rest = some m' ∧
      m'.isComplete = true ∧ m'.numeral = n := by
  cases h with
  | @mk e es negative d ds fraction hd he =>
    obtain ⟨c, cs, m, m₁, hcs, hstart, hwhole, hplace₁, heq₁⟩ :=
      NumberScan.reads_whole negative d ds hd
    obtain ⟨m₂, hfraction, hplace₂, heq₂⟩ :=
      NumberScan.reads_fraction hplace₁ (by rw [heq₁]) fraction
    obtain ⟨m₃, hexponent, hcomplete, hnumeral⟩ :=
      NumberScan.reads_exponent hplace₂ (by rw [heq₂, heq₁]) (by rw [heq₂, heq₁]) he
    refine ⟨c, cs ++ fractionText fraction ++ es, m, m₃, ?_, hstart, ?_, hcomplete, ?_⟩
    · rw [hcs, List.cons_append, List.cons_append]
    · rw [List.append_assoc, NumberScan.reads_append hwhole, NumberScan.reads_append hfraction,
        hexponent]
    · rw [hnumeral, heq₂, heq₁]
      simp

/-! ## What a number has been read from -/

namespace NumberScan

/-- The text of a number up to its exponent. -/
def before (n : NumberScan) : List Char :=
  signText n.negative ++ n.whole.reverse.map digitChar ++ fractionText n.fraction.reverse

/-- Digits may stand before the point: the first is zero only if it is the only
    one. -/
def Proper (n : NumberScan) : Prop :=
  ∃ d ds, n.whole.reverse = d :: ds ∧ (d.val = 0 → ds = [])

/-- The characters `cs` are those that a number has been read from. -/
def ReadFrom (n : NumberScan) (cs : List Char) : Prop :=
  match n.place with
  | .sign => n = { place := .sign, negative := true } ∧ cs = ['-']
  | .zero => n.exponent = [] ∧ n.exponentNegative = false ∧ n.fraction = [] ∧
      (∃ d, n.whole = [d]) ∧ cs = n.before
  | .whole => n.exponent = [] ∧ n.exponentNegative = false ∧ n.fraction = [] ∧
      (∃ d ds, n.whole.reverse = d :: ds ∧ d.val ≠ 0) ∧ cs = n.before
  | .point => n.exponent = [] ∧ n.exponentNegative = false ∧ n.fraction = [] ∧ n.Proper ∧
      cs = n.before ++ ['.']
  | .fraction => n.exponent = [] ∧ n.exponentNegative = false ∧ n.Proper ∧ n.fraction ≠ [] ∧
      cs = n.before
  | .mark => n.exponent = [] ∧ n.exponentNegative = false ∧ n.Proper ∧
      ∃ m, IsMark m ∧ cs = n.before ++ [m]
  | .markSign => n.exponent = [] ∧ n.Proper ∧
      ∃ m sign, IsMark m ∧ ExponentSign n.exponentNegative sign ∧ cs = n.before ++ m :: sign
  | .exponent => n.exponent ≠ [] ∧ n.Proper ∧
      ∃ m sign, IsMark m ∧ ExponentSign n.exponentNegative sign ∧
        cs = n.before ++ m :: (sign ++ n.exponent.reverse.map digitChar)

theorem Proper.of_zero {n : NumberScan} (h : ∃ d, n.whole = [d]) : n.Proper := by
  obtain ⟨d, hd⟩ := h
  exact ⟨d, [], by rw [hd]; rfl, fun _ => rfl⟩

theorem Proper.of_whole {n : NumberScan} (h : ∃ d ds, n.whole.reverse = d :: ds ∧ d.val ≠ 0) :
    n.Proper := by
  obtain ⟨d, ds, heq, hne⟩ := h
  exact ⟨d, ds, heq, fun hz => absurd hz hne⟩

theorem isMark_of_or {c : Char} (h : (c = 'e' || c = 'E') = true) : IsMark c := by
  simpa [IsMark] using h

theorem val_digitOf_ne {c : Char} (h : c.isDigit = true) (hne : c ≠ '0') : (digitOf c).val ≠ 0 := by
  intro hz
  rw [← digitChar_eq_zero, digitChar_digitOf h] at hz
  exact hne hz

/-- One more character, whatever place it leads to. -/
theorem ReadFrom.next {n n' : NumberScan} {cs : List Char} {c : Char} (h : n.ReadFrom cs)
    (hn : n.next c = some n') : n'.ReadFrom (cs ++ [c]) := by
  obtain ⟨place, negative, whole, fraction, exponentNegative, exponent⟩ := n
  cases place with
  | sign =>
    obtain ⟨heq, rfl⟩ := h
    injection heq with _ h₁ h₂ h₃ h₄ h₅
    subst h₁ h₂ h₃ h₄ h₅
    simp only [NumberScan.next] at hn
    split at hn
    · rename_i hc
      subst hc
      cases hn
      exact ⟨rfl, rfl, rfl, ⟨_, rfl⟩, rfl⟩
    · rename_i hne
      split at hn
      · rename_i hc
        cases hn
        refine ⟨rfl, rfl, rfl, ⟨_, [], rfl, val_digitOf_ne hc hne⟩, ?_⟩
        simp [before, signText, fractionText, digitChar_digitOf hc]
      · cases hn
  | zero =>
    obtain ⟨he, hs, hf, hw, rfl⟩ := h
    simp only [NumberScan.next] at hn
    split at hn
    · rename_i hc
      subst hc
      cases hn
      exact ⟨he, hs, hf, .of_zero hw, rfl⟩
    · split at hn
      · rename_i hc
        cases hn
        exact ⟨he, hs, .of_zero hw, c, isMark_of_or hc, rfl⟩
      · cases hn
  | whole =>
    obtain ⟨he, hs, hf, hw, rfl⟩ := h
    simp only [NumberScan.next] at hn
    split at hn
    · rename_i hc
      cases hn
      obtain ⟨d, ds, heq, hne⟩ := hw
      simp only at hf heq
      subst hf
      refine ⟨he, hs, rfl, ⟨d, ds ++ [digitOf c], ?_, hne⟩, ?_⟩
      · simp [heq]
      · simp [before, fractionText, digitChar_digitOf hc]
    · split at hn
      · rename_i hc
        subst hc
        cases hn
        exact ⟨he, hs, hf, .of_whole hw, rfl⟩
      · split at hn
        · rename_i hc
          cases hn
          exact ⟨he, hs, .of_whole hw, c, isMark_of_or hc, rfl⟩
        · cases hn
  | point =>
    obtain ⟨he, hs, hf, hw, rfl⟩ := h
    simp only [NumberScan.next] at hn
    split at hn
    · rename_i hc
      cases hn
      simp only at hf
      subst hf
      refine ⟨he, hs, hw, List.cons_ne_nil _ _, ?_⟩
      simp [before, fractionText, digitChar_digitOf hc]
    · cases hn
  | fraction =>
    obtain ⟨he, hs, hw, hf, rfl⟩ := h
    simp only [NumberScan.next] at hn
    split at hn
    · rename_i hc
      cases hn
      refine ⟨he, hs, hw, List.cons_ne_nil _ _, ?_⟩
      obtain ⟨f, fs, hfs⟩ : ∃ f fs, fraction.reverse = f :: fs := by
        cases hr : fraction.reverse with
        | nil => exact absurd (List.reverse_eq_nil_iff.1 hr) hf
        | cons f fs => exact ⟨f, fs, rfl⟩
      simp [before, fractionText, hfs, digitChar_digitOf hc]
    · split at hn
      · rename_i hc
        cases hn
        exact ⟨he, hs, hw, c, isMark_of_or hc, rfl⟩
      · cases hn
  | mark =>
    obtain ⟨he, hs, hw, m, hm, rfl⟩ := h
    simp only at he hs
    subst he hs
    simp only [NumberScan.next] at hn
    split at hn
    · rename_i hc
      subst hc
      cases hn
      exact ⟨rfl, hw, m, ['+'], hm, .plus, by simp [before]⟩
    · split at hn
      · rename_i hc
        subst hc
        cases hn
        exact ⟨rfl, hw, m, ['-'], hm, .minus, by simp [before]⟩
      · split at hn
        · rename_i hc
          cases hn
          exact ⟨List.cons_ne_nil _ _, hw, m, [], hm, .none,
            by simp [before, digitChar_digitOf hc]⟩
        · cases hn
  | markSign =>
    obtain ⟨he, hw, m, sign, hm, hsign, rfl⟩ := h
    simp only [NumberScan.next] at hn
    split at hn
    · rename_i hc
      cases hn
      exact ⟨List.cons_ne_nil _ _, hw, m, sign, hm, hsign,
        by simp [before, digitChar_digitOf hc]⟩
    · cases hn
  | exponent =>
    obtain ⟨he, hw, m, sign, hm, hsign, rfl⟩ := h
    simp only [NumberScan.next] at hn
    split at hn
    · rename_i hc
      cases hn
      exact ⟨List.cons_ne_nil _ _, hw, m, sign, hm, hsign,
        by simp [before, digitChar_digitOf hc]⟩
    · cases hn

/-- A number that may end here has been read from a text of its numeral. -/
theorem ReadFrom.numeral {n : NumberScan} {cs : List Char} (h : n.ReadFrom cs)
    (hc : n.isComplete = true) : NumeralText n.numeral cs := by
  obtain ⟨place, negative, whole, fraction, exponentNegative, exponent⟩ := n
  -- with no exponent the text ends where the fraction does
  have hplain (hw : Proper ⟨place, negative, whole, fraction, exponentNegative, exponent⟩)
      (he : exponent = []) :
      NumeralText (NumberScan.numeral
          ⟨place, negative, whole, fraction, exponentNegative, exponent⟩)
        (before ⟨place, negative, whole, fraction, exponentNegative, exponent⟩) := by
    obtain ⟨d, ds, heq, hd⟩ := hw
    subst he
    have htext := NumeralText.mk negative d ds fraction.reverse hd .none
    simp only [NumberScan.numeral, before, List.isEmpty_nil, if_true]
    simp only at heq
    rwa [heq, ← List.append_nil (_ ++ _)]
  cases place with
  | sign | point | mark | markSign => cases hc
  | zero =>
    obtain ⟨he, -, -, hw, rfl⟩ := h
    exact hplain (.of_zero hw) he
  | whole =>
    obtain ⟨he, -, -, hw, rfl⟩ := h
    exact hplain (.of_whole hw) he
  | fraction =>
    obtain ⟨he, -, hw, -, rfl⟩ := h
    exact hplain hw he
  | exponent =>
    obtain ⟨he, ⟨d, ds, heq, hd⟩, m, sign, hm, hsign, rfl⟩ := h
    obtain ⟨x, xs, hx⟩ : ∃ x xs, exponent.reverse = x :: xs := by
      cases hr : exponent.reverse with
      | nil => exact absurd (List.reverse_eq_nil_iff.1 hr) he
      | cons x xs => exact ⟨x, xs, rfl⟩
    have hempty : exponent.isEmpty = false := by
      cases exponent with
      | nil => exact absurd rfl he
      | cons _ _ => rfl
    have htext := NumeralText.mk negative d ds fraction.reverse hd (.some hm hsign x xs)
    simp only [NumberScan.numeral, before, hempty, Bool.false_eq_true, if_false, hx]
    simp only at heq
    rwa [heq]

end NumberScan
/-! ## Where a number ends -/

/-- Whether a token stands for a place that is not JSON. -/
def Token.isBroken : Token → Bool
  | .broken _ _ => true
  | _ => false

/-- Tokens of a text that is JSON to its end. -/
def Unbroken (ts : List Token) : Prop :=
  ∀ t ∈ ts, t.isBroken = false

theorem not_unbroken {quoted : Bool} {b : Break} {ts : List Token}
    (h : Unbroken (.broken quoted b :: ts)) : False := by
  cases h _ (List.mem_cons_self ..)

theorem Unbroken.tail {t : Token} {ts : List Token} (h : Unbroken (t :: ts)) : Unbroken ts :=
  fun t' ht' => h t' (List.mem_cons_of_mem t ht')

namespace Scan

theorem run_number_stop {n : NumberScan} {c : Char} (hn : n.next c = none)
    (hc : n.isComplete = true) (hd : n.place = .zero → c.isDigit = false) (rest : List Char) :
    run (.number n) [] (c :: rest) = .number n.numeral :: run .idle [] (c :: rest) := by
  have hgo : (n.isComplete && !(n.place = .zero && c.isDigit)) = true := by
    by_cases hz : n.place = .zero
    · simp [hc, hd hz]
    · simp [hc, hz]
  rw [run_step (show (Scan.number n).step c = ((start c).1, .number n.numeral :: (start c).2) by
    simp only [step, hn, hgo, if_true]), run_cons]
  rfl

/-- A number ends before a character that cannot continue it. -/
theorem run_number_end {n : NumberScan} (hc : n.isComplete = true) {rest : List Char}
    (hrest : ∀ c ∈ rest.head?, c.isDigit = false ∧ c ≠ '.' ∧ ¬IsMark c) :
    run (.number n) [] rest = .number n.numeral :: run .idle [] rest := by
  cases rest with
  | nil =>
    show (if n.isComplete then _ else _) = _
    rw [if_pos hc]
    rfl
  | cons c rest =>
    obtain ⟨hdigit, hpoint, hmark⟩ := hrest c rfl
    have hmark' : (c = 'e' || c = 'E') = false := by
      simpa [IsMark] using hmark
    refine run_number_stop ?_ hc (fun _ => hdigit) rest
    cases hp : n.place with
    | sign | point | mark | markSign =>
      simp [NumberScan.isComplete, hp] at hc
    | zero => simp [NumberScan.next, hp, hpoint, hmark']
    | whole => simp [NumberScan.next, hp, hdigit, hpoint, hmark']
    | fraction => simp [NumberScan.next, hp, hdigit, hmark']
    | exponent => simp [NumberScan.next, hp, hdigit]

theorem isDigit_of_next_none {n : NumberScan} {c : Char} (hn : n.next c = none)
    (hc : n.isComplete = true) (hz : ¬(n.place = .zero ∧ c.isDigit = true)) :
    c.isDigit = false := by
  cases hd : c.isDigit with
  | false => rfl
  | true =>
    cases hp : n.place with
    | sign | point | mark | markSign => simp [NumberScan.isComplete, hp] at hc
    | zero => exact absurd ⟨hp, hd⟩ hz
    | whole => simp [NumberScan.next, hp, hd] at hn
    | fraction => simp [NumberScan.next, hp, hd] at hn
    | exponent => simp [NumberScan.next, hp, hd] at hn

theorem exists_number {n : NumberScan} {done cs : List Char} (hdone : n.ReadFrom done)
    (hu : Unbroken (run (.number n) [] cs)) :
    ∃ m more rest, cs = more ++ rest ∧ NumeralText m (done ++ more) ∧
      run (.number n) [] cs = .number m :: run .idle [] rest ∧
      ∀ c ∈ rest.head?, c.isDigit = false := by
  induction cs generalizing n done with
  | nil =>
    cases hc : n.isComplete with
    | false =>
      have hfinish : run (.number n) [] [] = [.bad .endInValue .badNumber] := by
        show (if n.isComplete then _ else _) = _
        rw [hc]
        rfl
      rw [hfinish] at hu
      exact (not_unbroken hu).elim
    | true =>
      refine ⟨n.numeral, [], [], rfl, ?_, ?_, by simp⟩
      · rw [List.append_nil]
        exact hdone.numeral hc
      · show (if n.isComplete then _ else _) = _
        rw [hc]
        rfl
  | cons c cs ih =>
    cases hn : n.next c with
    | some n' =>
      have hstep : (Scan.number n).step c = (.number n', []) := by simp only [step, hn]
      rw [run_step hstep, List.nil_append] at hu ⊢
      obtain ⟨m, more, rest, rfl, htext, hrun, hhead⟩ := ih (hdone.next hn) hu
      refine ⟨m, c :: more, rest, rfl, ?_, hrun, hhead⟩
      rwa [List.append_assoc] at htext
    | none =>
      by_cases hgo : n.isComplete = true ∧ ¬(n.place = .zero ∧ c.isDigit = true)
      · obtain ⟨hc, hz⟩ := hgo
        have hdigit := isDigit_of_next_none hn hc hz
        refine ⟨n.numeral, [], c :: cs, rfl, ?_, run_number_stop hn hc (fun _ => hdigit) cs, ?_⟩
        · rw [List.append_nil]
          exact hdone.numeral hc
        · intro d hd
          cases hd
          exact hdigit
      · have hgo' : (n.isComplete && !(n.place = .zero && c.isDigit)) = false := by
          simpa using hgo
        rw [run_step (show (Scan.number n).step c = (.halted, [.bad .badNumber .badNumber]) by
          simp only [step, hn, hgo', Bool.false_eq_true, if_false])] at hu
        exact (not_unbroken hu).elim

end Scan

end Shading.Json
