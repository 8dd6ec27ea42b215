/-
  The texts of JSON values spell these values: `spells_render`.
-/
import Shading.Proofs.Documents

namespace Shading.Json

/-! ## Values as drafts -/

mutual

/-- The draft of a value. -/
def Draft.ofJson : Json → Draft
  | .null => .null
  | .bool b => .bool b
  | .number n => .number n
  | .string s => .string (.ok s)
  | .array items => .array (Items.ofJson items)
  | .object members => .object (Members.ofJson members)

@[inherit_doc Draft.ofJson]
def Items.ofJson : List Json → Items
  | [] => .stop .closed
  | v :: rest => .cons (Draft.ofJson v) (Items.ofJson rest)

@[inherit_doc Draft.ofJson]
def Members.ofJson : List (String × Json) → Members
  | [] => .stop .closed
  | (name, v) :: rest => .cons (.ok name) (Draft.ofJson v) (Members.ofJson rest)

end

mutual

theorem Draft.isWhole_ofJson : (v : Json) → (Draft.ofJson v).isWhole = true
  | .null | .bool _ | .number _ | .string _ => rfl
  | .array items => Items.isWhole_ofJson items
  | .object members => Members.isWhole_ofJson members

theorem Items.isWhole_ofJson : (vs : List Json) → (Items.ofJson vs).isWhole = true
  | [] => rfl
  | v :: rest => by
    rw [Items.ofJson, Items.isWhole, Draft.isWhole_ofJson v, Items.isWhole_ofJson rest]
    rfl

theorem Members.isWhole_ofJson : (ms : List (String × Json)) → (Members.ofJson ms).isWhole = true
  | [] => rfl
  | (_, v) :: rest => by
    rw [Members.ofJson, Members.isWhole, Draft.isWhole_ofJson v, Members.isWhole_ofJson rest]
    rfl

end

/-! ## Numbers -/

/-- A numeral that JSON has a text for: a digit before the point, zero only if
    it is the only one, and digits in the exponent. -/
structure Numeral.Proper (n : Numeral) : Prop where
  whole : ∃ d ds, n.whole = d :: ds ∧ (d.val = 0 → ds = [])
  exponent : ∀ negative ds, n.exponent = some (negative, ds) → ds ≠ []

theorem toList_digitText (ds : List (Fin 10)) : (digitText ds).toList = ds.map digitChar :=
  String.toList_ofList

theorem Numeral.Proper.text {n : Numeral} (h : n.Proper) : NumeralText n n.render.toList := by
  obtain ⟨negative, whole, fraction, exponent⟩ := n
  obtain ⟨⟨d, ds, hwhole, hd⟩, hexponent⟩ := h
  simp only at hwhole
  subst hwhole
  have hsign : (if negative then "-" else "").toList = signText negative := by
    cases negative <;> rfl
  have hfraction : (if fraction.isEmpty then "" else "." ++ digitText fraction).toList =
      fractionText fraction := by
    cases fraction with
    | nil => rfl
    | cons f fs =>
      show ("." ++ digitText (f :: fs)).toList = _
      rw [String.toList_append, toList_digitText]
      rfl
  have htext (cs : List Char) (he : ExponentText exponent cs) :
      NumeralText ⟨negative, d :: ds, fraction, exponent⟩
        ((if negative then "-" else "").toList ++ (digitText (d :: ds)).toList ++
          (if fraction.isEmpty then "" else "." ++ digitText fraction).toList ++ cs) := by
    rw [hsign, hfraction, toList_digitText]
    exact .mk negative d ds fraction hd he
  cases exponent with
  | none =>
    have := htext [] .none
    simpa [render] using this
  | some e =>
    obtain ⟨eneg, es⟩ := e
    cases es with
    | nil => exact absurd rfl (hexponent eneg [] rfl)
    | cons e es =>
      have hmark : IsMark 'e' := .inl rfl
      cases eneg with
      | false =>
        have := htext _ (.some hmark .none e es)
        simpa [render, toList_digitText] using this
      | true =>
        have := htext _ (.some hmark .minus e es)
        simpa [render, toList_digitText] using this

/-! ## Quoted texts -/

/-- The part that stands for a character between quotation marks. -/
def Piece.ofChar (c : Char) : Piece :=
  if c = '"' then .short '"'
  else if c = '\\' then .short '\\'
  else if c = '\n' then .short 'n'
  else if c = '\r' then .short 'r'
  else if c = '\t' then .short 't'
  else if c.toNat = 8 then .short 'b'
  else if c.toNat = 12 then .short 'f'
  else if c.toNat < 32 then .unit '0' '0' (hexChar (c.toNat / 16)) (hexChar c.toNat)
  else .plain c

theorem hexValue_hexChar : ∀ n, n < 32 →
    QuoteScan.hexValue (hexChar (n / 16)) = some (n / 16) ∧
      QuoteScan.hexValue (hexChar n) = some (n % 16) := by
  decide

/-- The part of a control character that has no short escape. -/
theorem Piece.unit_spec {c : Char} (h : c.toNat < 32) :
    (Piece.unit '0' '0' (hexChar (c.toNat / 16)) (hexChar c.toNat)).Valid ∧
      (Piece.unit '0' '0' (hexChar (c.toNat / 16)) (hexChar c.toNat)).code = .inr c.toNat := by
  obtain ⟨h₁, h₂⟩ := hexValue_hexChar c.toNat h
  have hzero : QuoteScan.hexValue '0' = some 0 := rfl
  refine ⟨?_, ?_⟩
  · intro x hx
    simp only [List.mem_cons, List.not_mem_nil, or_false] at hx
    rcases hx with rfl | rfl | rfl | rfl
    · rfl
    · rfl
    · rw [h₁]; rfl
    · rw [h₂]; rfl
  · simp only [Piece.code, List.foldl_cons, List.foldl_nil, h₁, h₂, hzero, Option.getD_some]
    congr 1
    omega

/-- The part of a character is what is written for it, and stands for it as a
    character or, below 32, as its code unit. -/
theorem Piece.ofChar_spec (c : Char) :
    (Piece.ofChar c).text = escape c ∧ (Piece.ofChar c).Valid ∧
      ((Piece.ofChar c).code = .inl c ∨ c.toNat < 32 ∧ (Piece.ofChar c).code = .inr c.toNat) := by
  have heq {d : Char} (h : c.toNat = d.toNat) : c = d := by
    rw [← Char.ofNat_toNat c, h, Char.ofNat_toNat]
  unfold Piece.ofChar escape
  by_cases h₁ : c = '"'
  · subst h₁; exact ⟨rfl, rfl, .inl rfl⟩
  rw [if_neg h₁, if_neg h₁]
  by_cases h₂ : c = '\\'
  · subst h₂; exact ⟨rfl, rfl, .inl rfl⟩
  rw [if_neg h₂, if_neg h₂]
  by_cases h₃ : c = '\n'
  · subst h₃; exact ⟨rfl, rfl, .inl rfl⟩
  rw [if_neg h₃, if_neg h₃]
  by_cases h₄ : c = '\r'
  · subst h₄; exact ⟨rfl, rfl, .inl rfl⟩
  rw [if_neg h₄, if_neg h₄]
  by_cases h₅ : c = '\t'
  · subst h₅; exact ⟨rfl, rfl, .inl rfl⟩
  rw [if_neg h₅, if_neg h₅]
  by_cases h₆ : c.toNat = 8
  · obtain rfl := heq (d := Char.ofNat 8) h₆
    exact ⟨rfl, rfl, .inl rfl⟩
  rw [if_neg h₆, if_neg h₆]
  by_cases h₇ : c.toNat = 12
  · obtain rfl := heq (d := Char.ofNat 12) h₇
    exact ⟨rfl, rfl, .inl rfl⟩
  rw [if_neg h₇, if_neg h₇]
  by_cases h₈ : c.toNat < 32
  · rw [if_pos h₈, if_pos h₈]
    obtain ⟨hvalid, hcode⟩ := Piece.unit_spec h₈
    exact ⟨rfl, hvalid, .inr ⟨h₈, hcode⟩⟩
  · rw [if_neg h₈, if_neg h₈]
    exact ⟨rfl, ⟨h₁, h₂, Nat.le_of_not_lt h₈⟩, .inl rfl⟩

/-- The part of a character is read as that character. -/
theorem decode_ofChar (c : Char) (rest : List (Char ⊕ Nat)) :
    decode ((Piece.ofChar c).code :: rest) = (decode rest).map (c :: ·) := by
  obtain ⟨-, -, hcode | ⟨hlt, hcode⟩⟩ := Piece.ofChar_spec c
  · rw [hcode]
    rfl
  · have htrailing : isTrailing c.toNat = false := by
      simp only [isTrailing, Bool.and_eq_false_iff, decide_eq_false_iff_not]
      omega
    have hleading : isLeading c.toNat = false := by
      simp only [isLeading, Bool.and_eq_false_iff, decide_eq_false_iff_not]
      omega
    rw [hcode, decode_single htrailing hleading, Char.ofNat_toNat]

theorem contents_map_ofChar (s : String) : contents (s.toList.map Piece.ofChar) = .ok s := by
  have hdecode (cs : List Char) : decode ((cs.map Piece.ofChar).map Piece.code) = .ok cs := by
    induction cs with
    | nil => rfl
    | cons c cs ih =>
      rw [List.map_cons, List.map_cons, decode_ofChar, ih]
      rfl
  rw [contents, hdecode]
  show Except.ok (String.ofList s.toList) = .ok s
  rw [String.ofList_toList]

theorem lexeme_quote (s : String) : Lexeme (.string (.ok s)) (quote s).toList := by
  have hvalid : ∀ p ∈ s.toList.map Piece.ofChar, p.Valid := by
    intro p hp
    obtain ⟨c, -, rfl⟩ := List.mem_map.1 hp
    exact (Piece.ofChar_spec c).2.1
  have hlexeme := Lexeme.string (s.toList.map Piece.ofChar) hvalid
  rw [contents_map_ofChar] at hlexeme
  have htext : (s.toList.map Piece.ofChar).flatMap Piece.text = s.toList.flatMap escape := by
    rw [List.flatMap_map, show (fun c => (Piece.ofChar c).text) = escape from
      funext fun c => (Piece.ofChar_spec c).1]
  rw [htext] at hlexeme
  simpa [quote] using hlexeme

/-! ## Values -/

mutual

/-- All numbers in a value have a text. -/
def Proper : Json → Prop
  | .number n => n.Proper
  | .array items => ProperItems items
  | .object members => ProperMembers members
  | .null | .bool _ | .string _ => True

@[inherit_doc Proper]
def ProperItems : List Json → Prop
  | [] => True
  | v :: rest => Proper v ∧ ProperItems rest

@[inherit_doc Proper]
def ProperMembers : List (String × Json) → Prop
  | [] => True
  | (_, v) :: rest => Proper v ∧ ProperMembers rest

end

theorem toList_intercalate_comma (s : String) (ss : List String) :
    (",".intercalate (s :: ss)).toList = s.toList ++ ss.flatMap (',' :: ·.toList) := by
  rw [String.toList_intercalate]
  induction ss generalizing s with
  | nil => simp [List.intercalate]
  | cons t ss ih =>
    rw [List.map_cons, List.map_cons, List.intercalate_cons_cons, ← List.map_cons, ih]
    simp

theorem toList_render_array (v : Json) (vs : List Json) :
    (Json.array (v :: vs)).render.toList =
      '[' :: (v.render.toList ++ (renderItems vs).flatMap (',' :: ·.toList)) ++ [']'] := by
  rw [render, renderItems, String.toList_append, String.toList_append, toList_intercalate_comma]
  rfl

theorem toList_render_object (name : String) (v : Json) (ms : List (String × Json)) :
    (Json.object ((name, v) :: ms)).render.toList =
      '\x7b' :: ((quote name).toList ++ ':' :: v.render.toList ++
        (renderMembers ms).flatMap (',' :: ·.toList)) ++ ['\x7d'] := by
  rw [render, renderMembers, String.toList_append, String.toList_append, toList_intercalate_comma,
    String.toList_append, String.toList_append]
  simp

theorem head_of_tail (ss : List String) {c : Char} (hc : c.isDigit = false) (rest : List Char) :
    ∀ d ∈ (ss.flatMap (',' :: ·.toList) ++ c :: rest).head?, d.isDigit = false := by
  cases ss with
  | nil =>
    intro d hd
    cases hd
    exact hc
  | cons s ss =>
    intro d hd
    cases hd
    rfl

mutual

theorem spelled_render : (v : Json) → Proper v → {ts : List Token} → {rest : List Char} →
    Spelled ts rest → (∀ c ∈ rest.head?, c.isDigit = false) →
    Spelled ((Draft.ofJson v).tokens ++ ts) (v.render.toList ++ rest)
  | .null, _, _, _, h, _ => .token .null h fun hn => by cases hn
  | .bool true, _, _, _, h, _ => .token .yes h fun hn => by cases hn
  | .bool false, _, _, _, h, _ => .token .no h fun hn => by cases hn
  | .number n, hv, _, _, h, hd => .token (.number (Numeral.Proper.text hv)) h fun _ => hd
  | .string s, _, _, _, h, _ => .token (lexeme_quote s) h fun hn => by cases hn
  | .array [], _, _, _, h, _ => by
    have hclose := Spelled.token .closeArray h fun hn => by cases hn
    have hall := Spelled.token .openArray hclose fun hn => by cases hn
    exact hall
  | .array (v :: vs), hv, ts, rest, h, _ => by
    have htail := spelled_items vs hv.2 h
    have hfirst := spelled_render v hv.1 htail (head_of_tail (renderItems vs) rfl rest)
    have hall := Spelled.token .openArray hfirst fun hn => by cases hn
    rw [toList_render_array]
    simpa [Draft.ofJson, Items.ofJson, Draft.tokens, Items.tokens] using hall
  | .object [], _, _, _, h, _ => by
    have hclose := Spelled.token .closeObject h fun hn => by cases hn
    have hall := Spelled.token .openObject hclose fun hn => by cases hn
    exact hall
  | .object ((name, v) :: ms), hv, ts, rest, h, _ => by
    have htail := spelled_members ms hv.2 h
    have hfirst := spelled_render v hv.1 htail (head_of_tail (renderMembers ms) rfl rest)
    have hcolon := Spelled.token .colon hfirst fun hn => by cases hn
    have hname := Spelled.token (lexeme_quote name) hcolon fun hn => by cases hn
    have hall := Spelled.token .openObject hname fun hn => by cases hn
    rw [toList_render_object]
    simpa [Draft.ofJson, Members.ofJson, Draft.tokens, Members.tokens] using hall

theorem spelled_items : (vs : List Json) → ProperItems vs → {ts : List Token} →
    {rest : List Char} → Spelled ts rest →
    Spelled ((Items.ofJson vs).tokens [.comma] ++ ts)
      ((renderItems vs).flatMap (',' :: ·.toList) ++ ']' :: rest)
  | [], _, _, _, h => by
    have hclose := Spelled.token .closeArray h fun hn => by cases hn
    exact hclose
  | v :: vs, hv, ts, rest, h => by
    have htail := spelled_items vs hv.2 h
    have hfirst := spelled_render v hv.1 htail (head_of_tail (renderItems vs) rfl rest)
    have hall := Spelled.token .comma hfirst fun hn => by cases hn
    simpa [renderItems, Items.ofJson, Items.tokens] using hall

theorem spelled_members : (ms : List (String × Json)) → ProperMembers ms → {ts : List Token} →
    {rest : List Char} → Spelled ts rest →
    Spelled ((Members.ofJson ms).tokens [.comma] ++ ts)
      ((renderMembers ms).flatMap (',' :: ·.toList) ++ '\x7d' :: rest)
  | [], _, _, _, h => by
    have hclose := Spelled.token .closeObject h fun hn => by cases hn
    exact hclose
  | (name, v) :: ms, hv, ts, rest, h => by
    have htail := spelled_members ms hv.2 h
    have hfirst := spelled_render v hv.1 htail (head_of_tail (renderMembers ms) rfl rest)
    have hcolon := Spelled.token .colon hfirst fun hn => by cases hn
    have hname := Spelled.token (lexeme_quote name) hcolon fun hn => by cases hn
    have hall := Spelled.token .comma hname fun hn => by cases hn
    simpa [renderMembers, Members.ofJson, Members.tokens] using hall

end

/-- The text of a value spells that value. -/
theorem spells_render {v : Json} (h : Proper v) : Spells v.render (Draft.ofJson v) := by
  refine ⟨Draft.isWhole_ofJson v, ?_⟩
  have := spelled_render v h .nil (fun c hc => by cases hc)
  rwa [List.append_nil, List.append_nil] at this

end Shading.Json
