/-
  The tokens of a JSON text.

  A text is scanned one character at a time (`Scan.step`), up to its end or to
  the first place that is not JSON.  Such a place ends the list of tokens with
  a `broken` token, which says what different readers of that place report
  (`Break`): a reader that wants the value there, one that skips it, and one
  that chooses between named cases.  A quoted text that only a reader of its
  contents would refuse, one with an unpaired surrogate, is a whole token with
  its flaw inside.
-/
import Shading.Json.Numeral

namespace Shading.Json

/-! ## Flaws -/

/-- Why a text is not JSON at some place. -/
inductive Flaw where
  | endInArray
  | endInObject
  | endInString
  | endInValue
  | colonExpected
  | arrayCommaExpected
  | objectCommaExpected
  | wordExpected
  | valueExpected
  | badEscape
  | badNumber
  | numberTooLarge
  | controlCharacter
  | keyExpected
  | loneSurrogate
  | cutEscape
  | trailingComma
  | trailingText
  | nestedTooDeep
  deriving DecidableEq, Repr

namespace Flaw

/-- Whether the text ends too early. -/
def isEnd : Flaw → Bool
  | endInArray | endInObject | endInString | endInValue => true
  | _ => false

/-- The flaw in words. -/
def message : Flaw → String
  | endInArray => "EOF while parsing a list"
  | endInObject => "EOF while parsing an object"
  | endInString => "EOF while parsing a string"
  | endInValue => "EOF while parsing a value"
  | colonExpected => "expected `:`"
  | arrayCommaExpected => "expected `,` or `]`"
  | objectCommaExpected => "expected `,` or `\x7d`"
  | wordExpected => "expected ident"
  | valueExpected => "expected value"
  | badEscape => "invalid escape"
  | badNumber => "invalid number"
  | numberTooLarge => "number out of range"
  | controlCharacter => "control character (\\u0000-\\u001F) found while parsing a string"
  | keyExpected => "key must be a string"
  | loneSurrogate => "lone leading surrogate in hex escape"
  | cutEscape => "unexpected end of hex escape"
  | trailingComma => "trailing comma"
  | trailingText => "trailing characters"
  | nestedTooDeep => "recursion limit exceeded"

end Flaw

/-- What the readers of a broken place report: `strict` wants the value,
    `loose` skips it, `choice` wants the name of a case. -/
structure Break where
  strict : Flaw
  loose : Flaw
  choice : Flaw
  deriving DecidableEq, Repr

/-- A flaw that all readers report. -/
def Break.plain (f : Flaw) : Break := ⟨f, f, f⟩

/-- The contents of a quoted text, or what is wrong with them. -/
abbrev Quoted := Except Flaw String

/-! ## Tokens -/

/-- A token; a broken one is the last of its text. -/
inductive Token where
  | openObject
  | closeObject
  | openArray
  | closeArray
  | colon
  | comma
  | null
  | bool (b : Bool)
  | number (n : Numeral)
  | string (s : Quoted)
  | broken (quoted : Bool) (b : Break)

/-- A token for a place, not in quotation marks, that is not JSON. -/
def Token.bad (strict loose : Flaw) : Token :=
  .broken false ⟨strict, loose, .valueExpected⟩

/-! ## Numbers -/

/-- How far a number has been read. -/
inductive NumberPlace where
  | sign
  | zero
  | whole
  | point
  | fraction
  | mark
  | markSign
  | exponent
  deriving DecidableEq

/-- A number part way through; its digits stand in reverse. -/
structure NumberScan where
  place : NumberPlace
  negative : Bool := false
  whole : List (Fin 10) := []
  fraction : List (Fin 10) := []
  exponentNegative : Bool := false
  exponent : List (Fin 10) := []

namespace NumberScan

/-- The number with one more character, if that can be part of it. -/
def next (n : NumberScan) (c : Char) : Option NumberScan :=
  let digit := digitOf c
  match n.place with
  | .sign =>
    if c = '0' then some { n with place := .zero, whole := [digit] }
    else if c.isDigit then some { n with place := .whole, whole := [digit] }
    else none
  | .zero =>
    if c = '.' then some { n with place := .point }
    else if c = 'e' || c = 'E' then some { n with place := .mark }
    else none
  | .whole =>
    if c.isDigit then some { n with whole := digit :: n.whole }
    else if c = '.' then some { n with place := .point }
    else if c = 'e' || c = 'E' then some { n with place := .mark }
    else none
  | .point =>
    if c.isDigit then some { n with place := .fraction, fraction := [digit] } else none
  | .fraction =>
    if c.isDigit then some { n with fraction := digit :: n.fraction }
    else if c = 'e' || c = 'E' then some { n with place := .mark }
    else none
  | .mark =>
    if c = '+' then some { n with place := .markSign }
    else if c = '-' then some { n with place := .markSign, exponentNegative := true }
    else if c.isDigit then some { n with place := .exponent, exponent := [digit] }
    else none
  | .markSign =>
    if c.isDigit then some { n with place := .exponent, exponent := [digit] } else none
  | .exponent =>
    if c.isDigit then some { n with exponent := digit :: n.exponent } else none

/-- Whether the number may end here. -/
def isComplete (n : NumberScan) : Bool :=
  match n.place with
  | .zero | .whole | .fraction | .exponent => true
  | .sign | .point | .mark | .markSign => false

/-- The number as far as it was read. -/
def numeral (n : NumberScan) : Numeral where
  negative := n.negative
  whole := n.whole.reverse
  fraction := n.fraction.reverse
  exponent := if n.exponent.isEmpty then none else some (n.exponentNegative, n.exponent.reverse)

end NumberScan

/-! ## Quoted texts -/

/-- How far an escape has been read: not begun, after the backslash, or in the
    four bytes after `\u`. -/
inductive EscapePlace where
  | outside
  | begun
  | hex (width value : Nat) (valid : Bool)

/-- A quoted text part way through; its characters stand in reverse. -/
structure QuoteScan where
  text : List Char := []
  place : EscapePlace := .outside
  /-- A leading surrogate that waits for its partner. -/
  leading : Option Nat := none
  /-- The first thing that a reader of the contents refuses. -/
  flaw : Option Flaw := none

/-- What one character does to a quoted text. -/
inductive QuoteStep where
  | more (q : QuoteScan)
  | done (s : Quoted)
  | broken (b : Break)

namespace QuoteScan

/-- The text with a flaw, unless it has one. -/
def refuse (q : QuoteScan) (f : Flaw) : QuoteScan :=
  { q with flaw := q.flaw.or (some f), leading := none }

/-- The text with one more character. -/
def push (q : QuoteScan) (c : Char) : QuoteScan :=
  { q with text := c :: q.text, place := .outside }

/-- A place at which every reader stops; a reader of the contents may have
    stopped before. -/
def stop (q : QuoteScan) (f : Flaw) : Break :=
  ⟨q.flaw.getD f, f, q.flaw.getD f⟩

/-- The text after the code unit `n` of a finished `\u` escape. -/
def addUnit (q : QuoteScan) (n : Nat) : QuoteScan :=
  let q := { q with place := .outside }
  match q.leading with
  | some high =>
    if 0xDC00 ≤ n && n ≤ 0xDFFF then
      let c := Char.ofNat ((high - 0xD800) * 0x400 + (n - 0xDC00) + 0x10000)
      { q.push c with leading := none }
    else q.refuse .loneSurrogate
  | none =>
    if 0xDC00 ≤ n && n ≤ 0xDFFF then q.refuse .loneSurrogate
    else if 0xD800 ≤ n && n ≤ 0xDBFF then { q with leading := some n }
    else q.push (Char.ofNat n)

/-- The character that a one letter escape stands for. -/
def shortEscape (c : Char) : Option Char :=
  if c = '"' || c = '\\' || c = '/' then some c
  else if c = 'b' then some (Char.ofNat 8)
  else if c = 'f' then some (Char.ofNat 12)
  else if c = 'n' then some '\n'
  else if c = 'r' then some '\r'
  else if c = 't' then some '\t'
  else none

/-- The value of a digit of a `\u` escape. -/
def hexValue (c : Char) : Option Nat :=
  if '0' ≤ c && c ≤ '9' then some (c.toNat - '0'.toNat)
  else if 'a' ≤ c && c ≤ 'f' then some (c.toNat - 'a'.toNat + 10)
  else if 'A' ≤ c && c ≤ 'F' then some (c.toNat - 'A'.toNat + 10)
  else none

/-- The text with one more character.  A leading surrogate wants `\u` next. -/
def step (q : QuoteScan) (c : Char) : QuoteStep :=
  match q.place with
  | .outside =>
    if c = '\\' then .more { q with place := .begun }
    else
      let q := if q.leading.isSome then q.refuse .cutEscape else q
      if c = '"' then
        .done (match q.flaw with
          | some f => .error f
          | none => .ok (String.ofList q.text.reverse))
      else if c.toNat < 0x20 then .broken (q.stop .controlCharacter)
      else .more (q.push c)
  | .begun =>
    if c = 'u' then .more { q with place := .hex 0 0 true }
    else
      let q := if q.leading.isSome then q.refuse .cutEscape else q
      match shortEscape c with
      | some e => .more (q.push e)
      | none => .broken (q.stop .badEscape)
  | .hex width value valid =>
    let width := width + c.utf8Size
    let value := 16 * value + (hexValue c).getD 0
    let valid := valid && (hexValue c).isSome
    if width < 4 then .more { q with place := .hex width value valid }
    else if valid then .more (q.addUnit value)
    else .broken (q.stop .badEscape)

end QuoteScan

/-! ## Scanning -/

/-- What is being read. -/
inductive Scan where
  | idle
  | word (next : Char) (rest : List Char) (token : Token)
  | number (n : NumberScan)
  | quoted (q : QuoteScan)
  | halted

namespace Scan

/-- The blanks that may stand between tokens. -/
def isSpace (c : Char) : Bool :=
  c == ' ' || c == '\n' || c == '\t' || c == '\r'

/-- What a character begins. -/
def start (c : Char) : Scan × List Token :=
  if isSpace c then (.idle, [])
  else if c = '\x7b' then (.idle, [.openObject])
  else if c = '\x7d' then (.idle, [.closeObject])
  else if c = '[' then (.idle, [.openArray])
  else if c = ']' then (.idle, [.closeArray])
  else if c = ':' then (.idle, [.colon])
  else if c = ',' then (.idle, [.comma])
  else if c = '"' then (.quoted {}, [])
  else if c = 'n' then (.word 'u' ['l', 'l'] .null, [])
  else if c = 't' then (.word 'r' ['u', 'e'] (.bool true), [])
  else if c = 'f' then (.word 'a' ['l', 's', 'e'] (.bool false), [])
  else if c = '-' then (.number { place := .sign, negative := true }, [])
  else if c = '0' then (.number { place := .zero, whole := [digitOf c] }, [])
  else if c.isDigit then (.number { place := .whole, whole := [digitOf c] }, [])
  else (.halted, [.bad .valueExpected .valueExpected])

/-- One more character: what is being read after it, and the tokens that it
    completes. -/
def step (s : Scan) (c : Char) : Scan × List Token :=
  match s with
  | .idle => start c
  | .word w rest token =>
    if c ≠ w then (.halted, [.bad .wordExpected .wordExpected])
    else
      match rest with
      | [] => (.idle, [token])
      | w :: rest => (.word w rest token, [])
  | .number n =>
    match n.next c with
    | some n => (.number n, [])
    | none =>
      if n.isComplete && !(n.place = .zero && c.isDigit) then
        let (s, ts) := start c
        (s, .number n.numeral :: ts)
      else (.halted, [.bad .badNumber .badNumber])
  | .quoted q =>
    match q.step c with
    | .more q => (.quoted q, [])
    | .done s => (.idle, [.string s])
    | .broken b => (.halted, [.broken true b])
  | .halted => (.halted, [])

/-- The tokens that the end of the text completes. -/
def finish : Scan → List Token
  | .idle | .halted => []
  | .word _ _ _ => [.bad .endInValue .endInValue]
  | .number n => if n.isComplete then [.number n.numeral] else [.bad .endInValue .badNumber]
  | .quoted q => [.broken true (q.stop .endInString)]

/-- The tokens of the rest of a text, after those in `found`, which stand in
    reverse. -/
def run : Scan → (found : List Token) → List Char → List Token
  | s, found, [] => found.reverse ++ s.finish
  | s, found, c :: rest =>
    match s.step c with
    | (s, ts) => run s (ts.reverse ++ found) rest

end Scan

/-- The tokens of a text. -/
def tokens (text : String) : List Token :=
  Scan.run .idle [] text.toList

end Shading.Json
