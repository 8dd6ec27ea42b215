/-
  The grammar of JSON tokens.

  `Lexeme t cs` says which characters spell a token, `Spelled ts cs` which
  texts spell a list of tokens, with blanks between them.  The scanner reads
  exactly these texts: `spelled_iff`.
-/
import Shading.Proofs.Numerals

namespace Shading.Json

/-! ## The grammar -/

/-- A part of a quoted text: a character as it is, a one letter escape, or the
    four digits of a `\u` escape. -/
inductive Piece where
  | plain (c : Char)
  | short (c : Char)
  | unit (a b c d : Char)

namespace Piece

/-- The characters of a part. -/
def text : Piece → List Char
  | plain c => [c]
  | short c => ['\\', c]
  | unit a b c d => ['\\', 'u', a, b, c, d]

theorem length_text_pos (p : Piece) : 0 < p.text.length := by
  cases p <;> simp [text]

/-- Whether a part may stand in a quoted text. -/
def Valid : Piece → Prop
  | plain c => c ≠ '"' ∧ c ≠ '\\' ∧ 0x20 ≤ c.toNat
  | short c => (QuoteScan.shortEscape c).isSome = true
  | unit a b c d => ∀ x ∈ [a, b, c, d], (QuoteScan.hexValue x).isSome = true

/-- What a part stands for: a character or a code unit. -/
def code : Piece → Char ⊕ Nat
  | plain c => .inl c
  | short c => .inl ((QuoteScan.shortEscape c).getD c)
  | unit a b c d =>
    .inr ([a, b, c, d].foldl (fun n x => 16 * n + (QuoteScan.hexValue x).getD 0) 0)

end Piece

/-- A code unit that begins a pair. -/
def isLeading (n : Nat) : Bool := 0xD800 ≤ n && n ≤ 0xDBFF

/-- A code unit that ends a pair. -/
def isTrailing (n : Nat) : Bool := 0xDC00 ≤ n && n ≤ 0xDFFF

/-- The character that a pair of code units stands for. -/
def pairChar (high low : Nat) : Char :=
  Char.ofNat ((high - 0xD800) * 0x400 + (low - 0xDC00) + 0x10000)

/-- The characters of a quoted text, or the first thing that is wrong with it:
    code units that are half of a pair stand together in a pair. -/
def decode : List (Char ⊕ Nat) → Except Flaw (List Char)
  | [] => .ok []
  | .inl c :: rest => (decode rest).map (c :: ·)
  | .inr n :: rest =>
    if isTrailing n then .error .loneSurrogate
    else if isLeading n then
      match rest with
      | .inr m :: rest =>
        if isTrailing m then (decode rest).map (pairChar n m :: ·) else .error .loneSurrogate
      | _ => .error .cutEscape
    else (decode rest).map (Char.ofNat n :: ·)

theorem decode_trailing {n : Nat} (h : isTrailing n = true) (rest : List (Char ⊕ Nat)) :
    decode (.inr n :: rest) = .error .loneSurrogate := by
  cases rest with
  | nil => simp [decode, h]
  | cons x rest => cases x <;> simp [decode, h]

theorem decode_single {n : Nat} (ht : isTrailing n = false) (hl : isLeading n = false)
    (rest : List (Char ⊕ Nat)) :
    decode (.inr n :: rest) = (decode rest).map (Char.ofNat n :: ·) := by
  cases rest with
  | nil => simp [decode, ht, hl]
  | cons x rest => cases x <;> simp [decode, ht, hl]

/-- The contents of a quoted text in parts. -/
def contents (ps : List Piece) : Quoted :=
  (decode (ps.map Piece.code)).map String.ofList

/-- The characters that spell a token. -/
inductive Lexeme : Token → List Char → Prop
  | openObject : Lexeme .openObject ['\x7b']
  | closeObject : Lexeme .closeObject ['\x7d']
  | openArray : Lexeme .openArray ['[']
  | closeArray : Lexeme .closeArray [']']
  | colon : Lexeme .colon [':']
  | comma : Lexeme .comma [',']
  | null : Lexeme .null ['n', 'u', 'l', 'l']
  | yes : Lexeme (.bool true) ['t', 'r', 'u', 'e']
  | no : Lexeme (.bool false) ['f', 'a', 'l', 's', 'e']
  | number {n : Numeral} {cs : List Char} (h : NumeralText n cs) : Lexeme (.number n) cs
  | string (ps : List Piece) (h : ∀ p ∈ ps, p.Valid) :
      Lexeme (.string (contents ps)) ('"' :: (ps.flatMap Piece.text ++ ['"']))

/-- Whether a token is a number. -/
def Token.isNumber : Token → Bool
  | .number _ => true
  | _ => false

/-- The texts that spell a list of tokens.  A digit right after a number would
    belong to it. -/
inductive Spelled : List Token → List Char → Prop
  | nil : Spelled [] []
  | blank {c : Char} {ts : List Token} {cs : List Char} (hc : Scan.isSpace c = true)
      (h : Spelled ts cs) : Spelled ts (c :: cs)
  | token {t : Token} {ts : List Token} {cs rest : List Char} (ht : Lexeme t cs)
      (h : Spelled ts rest)
      (hd : t.isNumber = true → ∀ c ∈ rest.head?, c.isDigit = false) :
      Spelled (t :: ts) (cs ++ rest)

/-! ## Reading quoted texts -/

namespace QuoteScan

/-- The text after one more part. -/
def after (q : QuoteScan) : Char ⊕ Nat → QuoteScan
  | .inl c => (if q.leading.isSome then q.refuse .cutEscape else q).push c
  | .inr n => q.addUnit n

/-- The text is between two parts, and what waits for its partner is a leading
    surrogate. -/
structure Between (q : QuoteScan) : Prop where
  place : q.place = .outside
  leading : ∀ n, q.leading = some n → isLeading n = true

/-- The contents of a text that some more parts complete. -/
def outcome (q : QuoteScan) (codes : List (Char ⊕ Nat)) : Quoted :=
  match q.flaw with
  | some f => .error f
  | none =>
    (decode (q.leading.toList.map .inr ++ codes)).map
      fun cs => String.ofList (q.text.reverse ++ cs)

theorem not_isTrailing {n : Nat} (h : isLeading n = true) : isTrailing n = false := by
  simp only [isLeading, Bool.and_eq_true, decide_eq_true_eq] at h
  simp only [isTrailing, Bool.and_eq_false_iff, decide_eq_false_iff_not]
  omega

theorem Between.after {q : QuoteScan} (h : q.Between) (x : Char ⊕ Nat) : (q.after x).Between := by
  obtain ⟨text, place, leading, flaw⟩ := q
  obtain ⟨hplace, hleading⟩ := h
  simp only at hplace
  subst hplace
  cases x with
  | inl c =>
    cases leading with
    | none => exact ⟨rfl, fun n hn => by cases hn⟩
    | some m => exact ⟨rfl, fun n hn => by cases hn⟩
  | inr n =>
    cases leading with
    | none =>
      simp only [QuoteScan.after, addUnit]
      split
      · exact ⟨rfl, fun m hm => by cases hm⟩
      · split
        · rename_i hn
          refine ⟨rfl, fun m hm => ?_⟩
          cases hm
          exact hn
        · exact ⟨rfl, fun m hm => by cases hm⟩
    | some m =>
      simp only [QuoteScan.after, addUnit]
      split
      · exact ⟨rfl, fun m hm => by cases hm⟩
      · exact ⟨rfl, fun m hm => by cases hm⟩

theorem flaw_after {q : QuoteScan} {f : Flaw} (h : q.flaw = some f) (x : Char ⊕ Nat) :
    (q.after x).flaw = some f := by
  obtain ⟨text, place, leading, flaw⟩ := q
  simp only at h
  subst h
  cases x with
  | inl c =>
    cases leading with
    | none => rfl
    | some m => rfl
  | inr n =>
    cases leading with
    | none =>
      simp only [after, addUnit]
      split
      · rfl
      · split <;> rfl
    | some m =>
      simp only [after, addUnit]
      split <;> rfl

theorem map_map_ofList (r : Except Flaw (List Char)) (c : Char) (cs : List Char) :
    (r.map (c :: ·)).map (fun ds => String.ofList (cs.reverse ++ ds)) =
      r.map fun ds => String.ofList ((c :: cs).reverse ++ ds) := by
  cases r with
  | error f => rfl
  | ok ds => simp [Except.map]

/-- A part adds to the text what the grammar says. -/
theorem outcome_after {q : QuoteScan} (h : q.Between) (x : Char ⊕ Nat)
    (codes : List (Char ⊕ Nat)) : (q.after x).outcome codes = q.outcome (x :: codes) := by
  cases hf : q.flaw with
  | some f => simp only [outcome, flaw_after hf, hf]
  | none =>
    obtain ⟨text, place, leading, flaw⟩ := q
    obtain ⟨hplace, hleading⟩ := h
    simp only at hf hplace
    subst hf hplace
    cases leading with
    | none =>
      cases x with
      | inl c => exact (map_map_ofList _ c text).symm
      | inr n =>
        simp only [after, addUnit]
        split
        · rename_i hn
          simp [outcome, refuse, decode_trailing hn, Except.map]
        · rename_i hn
          have hn' : isTrailing n = false := by simpa [isTrailing] using hn
          split
          · rename_i hl
            simp [outcome]
          · rename_i hl
            have hl' : isLeading n = false := by simpa [isLeading] using hl
            simp only [outcome, push, Option.toList_none, List.map_nil, List.nil_append,
              decode_single hn' hl']
            exact (map_map_ofList _ (Char.ofNat n) text).symm
    | some m =>
      have hm : isLeading m = true := hleading m rfl
      have hm' := not_isTrailing hm
      cases x with
      | inl c =>
        simp [after, outcome, refuse, push, decode, hm, hm', Except.map]
      | inr n =>
        simp only [after, addUnit]
        split
        · rename_i hn
          have hn' : isTrailing n = true := hn
          simp only [outcome, push, Option.toList_none, Option.toList_some, List.map_nil,
            List.map_cons, List.nil_append, List.cons_append, decode, hm, hm', hn',
            Bool.false_eq_true, if_false, if_true]
          exact (map_map_ofList _ (pairChar m n) text).symm
        · rename_i hn
          have hn' : isTrailing n = false := by simpa [isTrailing] using hn
          simp [outcome, refuse, decode, hm, hm', hn', Except.map]

theorem utf8Size_of_hexValue {c : Char} (h : (hexValue c).isSome = true) : c.utf8Size = 1 := by
  rw [Char.utf8Size_eq_one_iff]
  have hle (d : Char) (hd : c ≤ d) (hd' : d.val ≤ 127) : c.val ≤ 127 :=
    UInt32.le_trans hd hd'
  simp only [hexValue] at h
  split at h
  · rename_i hc
    simp only [Bool.and_eq_true, decide_eq_true_eq] at hc
    exact hle '9' hc.2 (by decide)
  · split at h
    · rename_i hc
      simp only [Bool.and_eq_true, decide_eq_true_eq] at hc
      exact hle 'f' hc.2 (by decide)
    · split at h
      · rename_i hc
        simp only [Bool.and_eq_true, decide_eq_true_eq] at hc
        exact hle 'F' hc.2 (by decide)
      · cases h

theorem step_hex {q : QuoteScan} {w v : Nat} (hq : q.place = .hex w v true) {c : Char}
    (hc : (hexValue c).isSome = true) :
    q.step c = .more (if w + 1 < 4
      then { q with place := .hex (w + 1) (16 * v + (hexValue c).getD 0) true }
      else q.addUnit (16 * v + (hexValue c).getD 0)) := by
  simp only [step, hq, utf8Size_of_hexValue hc, hc, Bool.and_true, if_true]
  split <;> rfl

theorem run_more {q q' : QuoteScan} {c : Char} (h : q.step c = .more q') (rest : List Char) :
    Scan.run (.quoted q) [] (c :: rest) = Scan.run (.quoted q') [] rest := by
  rw [Scan.run_step (show (Scan.quoted q).step c = (.quoted q', []) by simp only [Scan.step, h])]
  rfl

/-- The scanner reads a part of a quoted text as one. -/
theorem run_piece {q : QuoteScan} (hq : q.place = .outside) {p : Piece} (hp : p.Valid)
    (rest : List Char) :
    Scan.run (.quoted q) [] (p.text ++ rest) = Scan.run (.quoted (q.after p.code)) [] rest := by
  have hescape : q.step '\\' = .more { q with place := .begun } := by
    simp only [step, hq, if_true]
  cases p with
  | plain c =>
    obtain ⟨hquote, hslash, hcontrol⟩ := hp
    refine run_more ?_ rest
    simp only [step, hq, hslash, hquote, if_false, Nat.not_lt.2 hcontrol]
    rfl
  | short c =>
    obtain ⟨e, he⟩ := Option.isSome_iff_exists.1 hp
    have hu : c ≠ 'u' := by
      rintro rfl
      cases he
    show Scan.run (.quoted q) [] ('\\' :: c :: rest) = _
    rw [run_more hescape]
    refine run_more ?_ rest
    simp only [step, hu, he, if_false, Piece.code, after, Option.getD_some]
    split <;> rfl
  | unit a b c d =>
    have ha := hp a (by simp)
    have hb := hp b (by simp)
    have hc := hp c (by simp)
    have hd := hp d (by simp)
    show Scan.run (.quoted q) [] ('\\' :: 'u' :: a :: b :: c :: d :: rest) = _
    rw [run_more hescape]
    rw [run_more (show step { q with place := .begun } 'u' =
      .more { q with place := .hex 0 0 true } by simp only [step, if_true])]
    rw [run_more (step_hex rfl ha), run_more (step_hex rfl hb), run_more (step_hex rfl hc),
      run_more (step_hex rfl hd)]
    rfl

/-- The quotation mark ends a text. -/
theorem run_close {q : QuoteScan} (hq : q.Between) (rest : List Char) :
    Scan.run (.quoted q) [] ('"' :: rest) = .string (q.outcome []) :: Scan.run .idle [] rest := by
  have hdone : q.step '"' = .done (q.outcome []) := by
    obtain ⟨text, place, leading, flaw⟩ := q
    obtain ⟨hplace, hleading⟩ := hq
    simp only at hplace
    subst hplace
    have hne : '"' ≠ '\\' := by decide
    cases flaw with
    | some f => cases leading <;> simp [step, hne, outcome, refuse]
    | none =>
      cases leading with
      | none => simp [step, hne, outcome, decode, Except.map]
      | some m =>
        have hm : isLeading m = true := hleading m rfl
        simp [step, hne, outcome, refuse, decode, hm, not_isTrailing hm, Except.map]
  rw [Scan.run_step (show (Scan.quoted q).step '"' = (.idle, [.string (q.outcome [])]) by
    simp only [Scan.step, hdone])]
  rfl

theorem run_pieces {q : QuoteScan} (hq : q.Between) {ps : List Piece} (hps : ∀ p ∈ ps, p.Valid)
    (rest : List Char) :
    Scan.run (.quoted q) [] (ps.flatMap Piece.text ++ '"' :: rest) =
      .string (q.outcome (ps.map Piece.code)) :: Scan.run .idle [] rest := by
  induction ps generalizing q with
  | nil => exact run_close hq rest
  | cons p ps ih =>
    rw [List.flatMap_cons, List.append_assoc, run_piece hq.place (hps p (List.mem_cons_self ..)),
      ih (hq.after p.code) (fun p' hp' => hps p' (List.mem_cons_of_mem p hp')), List.map_cons,
      outcome_after hq]

theorem run_broken {q : QuoteScan} {c : Char} {b : Break} (h : q.step c = .broken b)
    {rest : List Char} (hu : Unbroken (Scan.run (.quoted q) [] (c :: rest))) : False := by
  rw [Scan.run_step (show (Scan.quoted q).step c = (.halted, [.broken true b]) by
    simp only [Scan.step, h])] at hu
  exact not_unbroken hu

/-- An escape with a wrong digit is never completed. -/
theorem not_unbroken_hex {q : QuoteScan} {w v : Nat} (hq : q.place = .hex w v false)
    {cs : List Char} (hu : Unbroken (Scan.run (.quoted q) [] cs)) : False := by
  induction cs generalizing q w v with
  | nil => exact not_unbroken hu
  | cons c cs ih =>
    by_cases hw : w + c.utf8Size < 4
    · rw [run_more (show q.step c = .more { q with
          place := .hex (w + c.utf8Size) (16 * v + (hexValue c).getD 0) false } by
        simp only [step, hq, hw, Bool.false_and, if_true])] at hu
      exact ih rfl hu
    · refine run_broken (b := q.stop .badEscape) ?_ hu
      simp only [step, hq, hw, Bool.false_and, Bool.false_eq_true, if_false]

theorem exists_hex {q : QuoteScan} {w v : Nat} (hq : q.place = .hex w v true) {cs : List Char}
    (hu : Unbroken (Scan.run (.quoted q) [] cs)) :
    ∃ c rest, cs = c :: rest ∧ (hexValue c).isSome = true := by
  cases cs with
  | nil => exact (not_unbroken hu).elim
  | cons c rest =>
    refine ⟨c, rest, rfl, ?_⟩
    cases hc : hexValue c with
    | some n => rfl
    | none =>
      exfalso
      by_cases hw : w + c.utf8Size < 4
      · rw [run_more (show q.step c = .more { q with
            place := .hex (w + c.utf8Size) (16 * v + 0) false } by
          simp only [step, hq, hw, hc, Option.isSome_none, Option.getD_none, Bool.and_false,
            if_true])] at hu
        exact not_unbroken_hex rfl hu
      · refine run_broken (b := q.stop .badEscape) ?_ hu
        simp only [step, hq, hw, hc, Option.isSome_none, Bool.and_false, Bool.false_eq_true,
          if_false]

/-- A quoted text that is JSON to its end comes in parts. -/
theorem exists_piece {q : QuoteScan} (hq : q.place = .outside) {cs : List Char}
    (hu : Unbroken (Scan.run (.quoted q) [] cs)) :
    (∃ rest, cs = '"' :: rest) ∨ ∃ p rest, p.Valid ∧ cs = Piece.text p ++ rest := by
  cases cs with
  | nil => exact (not_unbroken hu).elim
  | cons c rest =>
    by_cases hquote : c = '"'
    · exact .inl ⟨rest, by rw [hquote]⟩
    right
    by_cases hslash : c = '\\'
    · subst hslash
      rw [run_more (show q.step '\\' = .more { q with place := .begun } by
        simp only [step, hq, if_true])] at hu
      cases rest with
      | nil => exact (not_unbroken hu).elim
      | cons d rest =>
        by_cases hd : d = 'u'
        · subst hd
          rw [run_more (show step { q with place := .begun } 'u' =
            .more { q with place := .hex 0 0 true } by simp only [step, if_true])] at hu
          obtain ⟨x₁, rest, rfl, h₁⟩ := exists_hex rfl hu
          rw [run_more (step_hex rfl h₁)] at hu
          obtain ⟨x₂, rest, rfl, h₂⟩ := exists_hex rfl hu
          rw [run_more (step_hex rfl h₂)] at hu
          obtain ⟨x₃, rest, rfl, h₃⟩ := exists_hex rfl hu
          rw [run_more (step_hex rfl h₃)] at hu
          obtain ⟨x₄, rest, rfl, h₄⟩ := exists_hex rfl hu
          refine ⟨.unit x₁ x₂ x₃ x₄, rest, ?_, rfl⟩
          intro x hx
          simp only [List.mem_cons, List.not_mem_nil, or_false] at hx
          rcases hx with rfl | rfl | rfl | rfl
          · exact h₁
          · exact h₂
          · exact h₃
          · exact h₄
        · refine ⟨.short d, rest, ?_, rfl⟩
          show (shortEscape d).isSome = true
          cases he : shortEscape d with
          | some e => rfl
          | none =>
            exfalso
            have hstep : ∃ b, step { q with place := .begun } d = .broken b := by
              simp only [step, hd, he, if_false]
              exact ⟨_, rfl⟩
            obtain ⟨b, hb⟩ := hstep
            exact run_broken hb hu
    · refine ⟨.plain c, rest, ⟨hquote, hslash, ?_⟩, rfl⟩
      refine Nat.le_of_not_lt fun hcontrol => ?_
      have hstep : ∃ b, q.step c = .broken b := by
        simp only [step, hq, hslash, hquote, hcontrol, if_false, if_true]
        exact ⟨_, rfl⟩
      obtain ⟨b, hb⟩ := hstep
      exact run_broken hb hu

theorem exists_pieces {q : QuoteScan} (hq : q.Between) {cs : List Char}
    (hu : Unbroken (Scan.run (.quoted q) [] cs)) :
    ∃ (ps : List Piece) (rest : List Char), (∀ p ∈ ps, p.Valid) ∧
      cs = ps.flatMap Piece.text ++ '"' :: rest := by
  rcases exists_piece hq.place hu with ⟨rest, rfl⟩ | ⟨p, rest, hp, rfl⟩
  · exact ⟨[], rest, by simp, rfl⟩
  · rw [run_piece hq.place hp] at hu
    obtain ⟨ps, rest', hps, rfl⟩ := exists_pieces (hq.after p.code) hu
    refine ⟨p :: ps, rest', ?_, by simp⟩
    intro p' hp'
    rcases List.mem_cons.1 hp' with rfl | hp'
    · exact hp
    · exact hps p' hp'
termination_by cs.length
decreasing_by
  subst_vars
  have hpos := p.length_text_pos
  rw [List.length_append]
  omega

theorem between_start : Between {} :=
  ⟨rfl, fun _ hn => by cases hn⟩

theorem outcome_start (ps : List Piece) : outcome {} (ps.map Piece.code) = contents ps := by
  simp only [outcome, contents, Option.toList_none, List.map_nil, List.nil_append,
    List.reverse_nil]

end QuoteScan

/-! ## Reading a text -/

namespace Scan

theorem run_word {w : Char} {ws : List Char} {t : Token} (rest : List Char) :
    run (.word w ws t) [] (w :: (ws ++ rest)) = t :: run .idle [] rest := by
  induction ws generalizing w with
  | nil =>
    rw [run_step (show (Scan.word w [] t).step w = (.idle, [t]) by simp [step])]
    rfl
  | cons w' ws ih =>
    rw [run_step (show (Scan.word w (w' :: ws) t).step w = (.word w' ws t, []) by simp [step])]
    exact ih

theorem exists_word {w : Char} {ws : List Char} {t : Token} {cs : List Char}
    (hu : Unbroken (run (.word w ws t) [] cs)) : ∃ rest, cs = w :: (ws ++ rest) := by
  induction ws generalizing w cs with
  | nil =>
    cases cs with
    | nil => exact (not_unbroken hu).elim
    | cons c rest =>
      by_cases hc : c = w
      · exact ⟨rest, by rw [hc]; rfl⟩
      · rw [run_step (show (Scan.word w [] t).step c = (.halted, [.bad .wordExpected .wordExpected])
          by simp [step, hc])] at hu
        exact (not_unbroken hu).elim
  | cons w' ws ih =>
    cases cs with
    | nil => exact (not_unbroken hu).elim
    | cons c rest =>
      by_cases hc : c = w
      · subst hc
        rw [run_step (show (Scan.word c (w' :: ws) t).step c = (.word w' ws t, [])
          by simp [step])] at hu
        obtain ⟨rest', rfl⟩ := ih hu
        exact ⟨rest', rfl⟩
      · rw [run_step (show (Scan.word w (w' :: ws) t).step c =
          (.halted, [.bad .wordExpected .wordExpected]) by simp [step, hc])] at hu
        exact (not_unbroken hu).elim

theorem start_space {c : Char} (h : isSpace c = true) : start c = (.idle, []) := by
  simp only [start, h, if_true]

end Scan

/-- Every token begins with a character that the scanner knows. -/
theorem Lexeme.start {t : Token} {cs : List Char} (h : Lexeme t cs) :
    ∃ c rest, cs = c :: rest ∧ Scan.start c ≠ Scan.start '.' := by
  cases h with
  | number h =>
    obtain ⟨c, rest, m, -, rfl, hstart, -⟩ := h.reads
    refine ⟨c, rest, rfl, ?_⟩
    rw [hstart]
    intro hc
    cases hc
  | string ps h => exact ⟨'"', _, rfl, fun hc => by cases hc⟩
  | openObject | closeObject | openArray | closeArray | colon | comma | null | yes | no =>
    exact ⟨_, _, rfl, fun hc => by cases hc⟩

theorem Spelled.start {ts : List Token} {c : Char} {cs : List Char} (h : Spelled ts (c :: cs)) :
    Scan.start c ≠ Scan.start '.' := by
  generalize hcs : c :: cs = text at h
  cases h with
  | nil => cases hcs
  | blank hspace _ =>
    injection hcs with hc _
    rw [hc, Scan.start_space hspace]
    intro h
    cases h
  | token ht _ _ =>
    obtain ⟨c', rest, rfl, hstart⟩ := ht.start
    injection hcs with hc _
    rw [hc]
    exact hstart

/-- The scanner reads a token and goes on behind it. -/
theorem Lexeme.run {t : Token} {cs : List Char} (h : Lexeme t cs) {ts : List Token}
    {rest : List Char} (hrest : Spelled ts rest)
    (hd : t.isNumber = true → ∀ c ∈ rest.head?, c.isDigit = false) :
    Scan.run .idle [] (cs ++ rest) = t :: Scan.run .idle [] rest := by
  cases h with
  | number h =>
    obtain ⟨c, more, m, m', rfl, hstart, hreads, hcomplete, rfl⟩ := h.reads
    rw [List.cons_append, Scan.run_step (show Scan.idle.step c = (.number m, []) from hstart),
      List.nil_append, NumberScan.run_reads hreads]
    refine Scan.run_number_end hcomplete fun d hd' => ⟨hd rfl d hd', ?_⟩
    cases rest with
    | nil => cases hd'
    | cons d' rest =>
      cases hd'
      have hstart' := hrest.start
      refine ⟨fun hpoint => ?_, fun hmark => ?_⟩
      · subst hpoint
        exact hstart' rfl
      · rcases hmark with rfl | rfl
        · exact hstart' rfl
        · exact hstart' rfl
  | string ps h =>
    have happend : '"' :: (ps.flatMap Piece.text ++ ['"']) ++ rest =
        '"' :: (ps.flatMap Piece.text ++ '"' :: rest) := by simp
    rw [happend, Scan.run_step (show Scan.idle.step '"' = (.quoted {}, []) from rfl),
      List.nil_append, QuoteScan.run_pieces QuoteScan.between_start h, QuoteScan.outcome_start]
  | null =>
    rw [show ['n', 'u', 'l', 'l'] ++ rest = 'n' :: 'u' :: (['l', 'l'] ++ rest) from rfl,
      Scan.run_step (show Scan.idle.step 'n' = (.word 'u' ['l', 'l'] .null, []) from rfl),
      List.nil_append, Scan.run_word]
  | yes =>
    rw [show ['t', 'r', 'u', 'e'] ++ rest = 't' :: 'r' :: (['u', 'e'] ++ rest) from rfl,
      Scan.run_step (show Scan.idle.step 't' = (.word 'r' ['u', 'e'] (.bool true), []) from rfl),
      List.nil_append, Scan.run_word]
  | no =>
    rw [show ['f', 'a', 'l', 's', 'e'] ++ rest = 'f' :: 'a' :: (['l', 's', 'e'] ++ rest) from rfl,
      Scan.run_step
        (show Scan.idle.step 'f' = (.word 'a' ['l', 's', 'e'] (.bool false), []) from rfl),
      List.nil_append, Scan.run_word]
  | openObject | closeObject | openArray | closeArray | colon | comma =>
    exact Scan.run_cons _ _ _

theorem Spelled.run {ts : List Token} {cs : List Char} (h : Spelled ts cs) :
    Scan.run .idle [] cs = ts := by
  induction h with
  | nil => rfl
  | blank hc _ ih =>
    rw [Scan.run_step (show Scan.idle.step _ = (.idle, []) from Scan.start_space hc), ih]
    rfl
  | token ht h hd ih => rw [ht.run h hd, ih]

theorem Spelled.unbroken {ts : List Token} {cs : List Char} (h : Spelled ts cs) : Unbroken ts := by
  induction h with
  | nil => exact fun t ht => by cases ht
  | blank _ _ ih => exact ih
  | token ht _ _ ih =>
    intro t' ht'
    rcases List.mem_cons.1 ht' with rfl | ht'
    · cases ht <;> rfl
    · exact ih t' ht'

/-- What the scanner begins at the first character of a token. -/
inductive Scan.Begins (c : Char) : Scan × List Token → Prop
  | blank : isSpace c = true → Begins c (.idle, [])
  | mark {t : Token} : Lexeme t [c] → t.isNumber = false → Begins c (.idle, [t])
  | quote : c = '"' → Begins c (.quoted {}, [])
  | word {w : Char} {ws : List Char} {t : Token} :
      Lexeme t (c :: w :: ws) → t.isNumber = false → Begins c (.word w ws t, [])
  | number {n : NumberScan} : n.ReadFrom [c] → Begins c (.number n, [])
  | bad : Begins c (.halted, [.bad .valueExpected .valueExpected])

theorem Scan.begins_digit {c : Char} (h : c.isDigit = true) : Begins c (start c) := by
  rw [start_digit h]
  refine .number ?_
  have hchar := digitChar_digitOf h
  by_cases hzero : c = '0'
  · rw [if_pos hzero]
    exact ⟨rfl, rfl, rfl, ⟨_, rfl⟩, by simp [NumberScan.before, signText, fractionText, hchar]⟩
  · rw [if_neg hzero]
    exact ⟨rfl, rfl, rfl, ⟨_, [], rfl, NumberScan.val_digitOf_ne h hzero⟩,
      by simp [NumberScan.before, signText, fractionText, hchar]⟩

theorem Scan.begins (c : Char) : Begins c (start c) := by
  by_cases hdigit : c.isDigit = true
  · exact begins_digit hdigit
  by_cases hspace : isSpace c = true
  · rw [start_space hspace]
    exact .blank hspace
  by_cases h₁ : c = '\x7b'
  · subst h₁; exact .mark .openObject rfl
  by_cases h₂ : c = '\x7d'
  · subst h₂; exact .mark .closeObject rfl
  by_cases h₃ : c = '['
  · subst h₃; exact .mark .openArray rfl
  by_cases h₄ : c = ']'
  · subst h₄; exact .mark .closeArray rfl
  by_cases h₅ : c = ':'
  · subst h₅; exact .mark .colon rfl
  by_cases h₆ : c = ','
  · subst h₆; exact .mark .comma rfl
  by_cases h₇ : c = '"'
  · subst h₇; exact .quote rfl
  by_cases h₈ : c = 'n'
  · subst h₈; exact .word .null rfl
  by_cases h₉ : c = 't'
  · subst h₉; exact .word .yes rfl
  by_cases h₁₀ : c = 'f'
  · subst h₁₀; exact .word .no rfl
  by_cases h₁₁ : c = '-'
  · subst h₁₁; exact .number ⟨rfl, rfl⟩
  have hzero : c ≠ '0' := by
    rintro rfl
    exact hdigit rfl
  have hbad : start c = (.halted, [.bad .valueExpected .valueExpected]) := by
    simp only [start, hspace, hdigit, h₁, h₂, h₃, h₄, h₅, h₆, h₇, h₈, h₉, h₁₀, h₁₁, hzero, if_false,
      Bool.false_eq_true]
  rw [hbad]
  exact .bad

/-- A text without a broken token spells its tokens. -/
theorem spelled_run {cs : List Char} (hu : Unbroken (Scan.run .idle [] cs)) :
    Spelled (Scan.run .idle [] cs) cs := by
  cases cs with
  | nil => exact .nil
  | cons c cs =>
    have hbegins := Scan.begins c
    generalize hstart : Scan.start c = begun at hbegins
    rw [Scan.run_step (show Scan.idle.step c = begun from hstart)] at hu ⊢
    -- what was begun ends as a token of the text, and the scanner goes on behind it
    cases hbegins with
    | blank hspace => exact .blank hspace (spelled_run hu)
    | mark ht hn => exact .token ht (spelled_run hu.tail) fun h => by rw [hn] at h; cases h
    | quote hc =>
      subst hc
      rw [List.nil_append] at hu ⊢
      obtain ⟨ps, rest, hps, rfl⟩ := QuoteScan.exists_pieces QuoteScan.between_start hu
      rw [QuoteScan.run_pieces QuoteScan.between_start hps, QuoteScan.outcome_start] at hu ⊢
      have htext := Spelled.token (.string ps hps) (spelled_run hu.tail) fun h => by cases h
      rwa [show '"' :: (ps.flatMap Piece.text ++ ['"']) ++ rest =
        '"' :: (ps.flatMap Piece.text ++ '"' :: rest) by simp] at htext
    | word ht hn =>
      rw [List.nil_append] at hu ⊢
      obtain ⟨rest, rfl⟩ := Scan.exists_word hu
      rw [Scan.run_word] at hu ⊢
      exact .token ht (spelled_run hu.tail) fun h => by rw [hn] at h; cases h
    | number hn =>
      rw [List.nil_append] at hu ⊢
      obtain ⟨m, more, rest, rfl, htext, hrun, hhead⟩ := Scan.exists_number hn hu
      rw [hrun] at hu ⊢
      exact .token (.number htext) (spelled_run hu.tail) fun _ => hhead
    | bad => exact (not_unbroken hu).elim
termination_by cs.length

/-- The scanner finds in a text exactly the tokens that it spells. -/
theorem spelled_iff {ts : List Token} {text : String} :
    Spelled ts text.toList ↔ tokens text = ts ∧ Unbroken ts := by
  constructor
  · intro h
    exact ⟨h.run, h.unbroken⟩
  · rintro ⟨rfl, hu⟩
    exact spelled_run hu

end Shading.Json
