import PL0.Binary64.Shortest
import PL0.Text.Decimal
import PL0.Text.Quoted

/-!
Reading the parts of a JSON text from the left. Each reader gives what it has read and the rest of
the text. A reader that cannot go on tells whether a character is out of place or the text has ended
too early.
-/

namespace PL0
namespace Json

inductive Flaw where
  | malformed | truncated
  deriving DecidableEq, Repr

def isSpace (c : Char) : Bool :=
  c == ' ' || c == '\t' || c == '\n' || c == '\r'

def skipSpace (text : List Char) : List Char :=
  text.dropWhile isSpace

/-! ### Strings -/

def hexValue? (c : Char) : Option Nat :=
  if c.isDigit then some (c.toNat - '0'.toNat)
  else if 'a' ≤ c ∧ c ≤ 'f' then some (c.toNat - 'a'.toNat + 10)
  else if 'A' ≤ c ∧ c ≤ 'F' then some (c.toNat - 'A'.toNat + 10)
  else none

/-- Four hexadecimal digits. They take four bytes, so the text has ended only if fewer are left. -/
def readHex : List Char → Except Flaw (Nat × List Char)
  | a :: b :: c :: d :: rest =>
    match hexValue? a, hexValue? b, hexValue? c, hexValue? d with
    | some a, some b, some c, some d => .ok (((a * 16 + b) * 16 + c) * 16 + d, rest)
    | _, _, _, _ => .error .malformed
  | text => .error (if (String.ofList text).utf8ByteSize < 4 then .truncated else .malformed)

def isLowSurrogate (unit : Nat) : Bool :=
  0xDC00 ≤ unit && unit ≤ 0xDFFF

def isHighSurrogate (unit : Nat) : Bool :=
  0xD800 ≤ unit && unit ≤ 0xDBFF

/-- The second half of a surrogate pair that starts with `high`. -/
def readLowSurrogate (high : Nat) : List Char → Except Flaw (Char × List Char)
  | '\\' :: 'u' :: rest =>
    match readHex rest with
    | .error flaw => .error flaw
    | .ok (low, rest) =>
      if isLowSurrogate low then
        .ok (Char.ofNat (0x10000 + (high - 0xD800) * 0x400 + (low - 0xDC00)), rest)
      else .error .malformed
  | [] | ['\\'] => .error .truncated
  | _ => .error .malformed

/-- The character that a backslash and a letter stand for. -/
def ofEscape? : Char → Option Char
  | '"' => some '"'
  | '\\' => some '\\'
  | '/' => some '/'
  | 'b' => some '\x08'
  | 'f' => some '\x0c'
  | 'n' => some '\n'
  | 'r' => some '\r'
  | 't' => some '\t'
  | _ => none

/-- A character given by its code, or by two codes that make a surrogate pair. -/
def readCode (text : List Char) : Except Flaw (Char × List Char) :=
  match readHex text with
  | .error flaw => .error flaw
  | .ok (unit, rest) =>
    if isLowSurrogate unit then .error .malformed
    else if isHighSurrogate unit then readLowSurrogate unit rest
    else .ok (Char.ofNat unit, rest)

/-- What stands behind the backslash of an escape. -/
def readEscape (text : List Char) : Except Flaw (Char × List Char) :=
  match text with
  | [] => .error .truncated
  | c :: rest =>
    if c = 'u' then readCode rest
    else
      match ofEscape? c with
      | some escaped => .ok (escaped, rest)
      | none => .error .malformed

theorem length_readHex {text rest : List Char} {n : Nat} (h : readHex text = .ok (n, rest)) :
    rest.length < text.length := by
  unfold readHex at h
  split at h
  · split at h
    · cases h; simp; omega
    · cases h
  · cases h

theorem length_readLowSurrogate {high : Nat} {text rest : List Char} {c : Char}
    (h : readLowSurrogate high text = .ok (c, rest)) : rest.length < text.length := by
  unfold readLowSurrogate at h
  split at h
  · split at h
    · cases h
    · rename_i hhex
      have hafter := length_readHex hhex
      split at h
      · simp only [Except.ok.injEq, Prod.mk.injEq] at h
        simp only [List.length_cons, ← h.2]
        omega
      · cases h
  all_goals cases h

theorem length_readCode {text rest : List Char} {c : Char}
    (h : readCode text = .ok (c, rest)) : rest.length < text.length := by
  unfold readCode at h
  split at h
  · cases h
  · rename_i unit after hhex
    have hafter := length_readHex hhex
    split at h
    · cases h
    · split at h
      · exact Nat.lt_trans (length_readLowSurrogate h) hafter
      · cases h
        exact hafter

theorem length_readEscape {text rest : List Char} {c : Char}
    (h : readEscape text = .ok (c, rest)) : rest.length < text.length := by
  unfold readEscape at h
  split at h
  · cases h
  · split at h
    · have := length_readCode h
      simp
      omega
    · split at h <;> cases h
      simp

/-- The characters of a string behind its opening quote. -/
def readString (text : List Char) : Except Flaw (List Char × List Char) :=
  match text with
  | [] => .error .truncated
  | '"' :: rest => .ok ([], rest)
  | '\\' :: rest =>
    match _h : readEscape rest with
    | .error flaw => .error flaw
    | .ok (c, rest) => (readString rest).map fun r => (c :: r.1, r.2)
  | c :: rest =>
    if c.toNat < 0x20 then .error .malformed
    else (readString rest).map fun r => (c :: r.1, r.2)
termination_by text.length
decreasing_by
  · have := length_readEscape ‹_›
    simp
    omega
  · simp

/-! ### Numbers -/

/-- A number as it is written. -/
structure Numeral where
  isNegative : Bool
  whole : List Char
  /-- The digits behind the point; none if there is no point. -/
  fraction : List Char
  /-- Whether the exponent is negative, and its digits. -/
  exponent : Option (Bool × List Char)
  deriving DecidableEq, Repr

/-- One or more digits. -/
def readDigits (text : List Char) : Except Flaw (List Char × List Char) :=
  match text with
  | [] => .error .truncated
  | c :: _ =>
    if c.isDigit then .ok (text.takeWhile Char.isDigit, text.dropWhile Char.isDigit)
    else .error .malformed

/-- Digits of which the first is a zero only if it is the only one. -/
def readWhole : List Char → Except Flaw (List Char × List Char)
  | '0' :: rest => if rest.head?.any Char.isDigit then .error .malformed else .ok (['0'], rest)
  | text => readDigits text

def readFraction : List Char → Except Flaw (List Char × List Char)
  | '.' :: rest => readDigits rest
  | text => .ok ([], text)

def readSigned : List Char → Except Flaw ((Bool × List Char) × List Char)
  | '-' :: rest => (readDigits rest).map fun r => ((true, r.1), r.2)
  | '+' :: rest => (readDigits rest).map fun r => ((false, r.1), r.2)
  | text => (readDigits text).map fun r => ((false, r.1), r.2)

def readExponent : List Char → Except Flaw (Option (Bool × List Char) × List Char)
  | 'e' :: rest => (readSigned rest).map fun r => (some r.1, r.2)
  | 'E' :: rest => (readSigned rest).map fun r => (some r.1, r.2)
  | text => .ok (none, text)

def readUnsigned (isNegative : Bool) (text : List Char) : Except Flaw (Numeral × List Char) := do
  let (whole, text) ← readWhole text
  let (fraction, text) ← readFraction text
  let (exponent, text) ← readExponent text
  return (⟨isNegative, whole, fraction, exponent⟩, text)

def readNumeral : List Char → Except Flaw (Numeral × List Char)
  | '-' :: rest => readUnsigned true rest
  | text => readUnsigned false text

/-- The value of a number: an integer that fits 64 bits, or else a signed binary64 magnitude. -/
inductive Number where
  | natural (value : Nat)
  | negative (magnitude : Nat)
  | real (isNegative : Bool) (magnitude : Binary64)
  deriving DecidableEq, Repr

/-- Appends digits to a number as long as it fits 64 bits; the number of digits left over. -/
def absorb (number : Nat) : List Char → Nat × Nat
  | [] => (number, 0)
  | c :: cs =>
    let longer := number * 10 + (c.toNat - '0'.toNat)
    if longer < UInt64.size then absorb longer cs else (number, cs.length + 1)

/-- The value of a number with a point, an exponent, or too many digits: the digits that fit 64
bits, times a power of ten. -/
def Numeral.magnitude (n : Numeral) : Option Binary64 :=
  let (whole, overflow) := absorb 0 n.whole
  let (significand, dropped) := absorb whole n.fraction
  let shift : Int := (overflow : Int) - ((n.fraction.length : Int) - dropped)
  match n.exponent with
  | none => Binary64.ofScientific significand shift
  | some (isNegative, digits) =>
    let exponent := Nat.ofDigitChars 10 digits 0
    if exponent < UInt32.size / 2 then
      Binary64.ofScientific significand (if isNegative then shift - exponent else shift + exponent)
    else if significand = 0 ∨ isNegative then some .zero
    else none

/-- The value of a number. One that is too large for binary64 is malformed. -/
def Numeral.value (n : Numeral) : Except Flaw Number :=
  let (whole, overflow) := absorb 0 n.whole
  if overflow = 0 ∧ n.fraction.isEmpty ∧ n.exponent.isNone ∧ ! n.isNegative then
    .ok (.natural whole)
  else if overflow = 0 ∧ n.fraction.isEmpty ∧ n.exponent.isNone ∧ 0 < whole ∧
      whole ≤ UInt64.size / 2 then
    .ok (.negative whole)
  else
    match n.magnitude with
    | some magnitude => .ok (.real n.isNegative magnitude)
    | none => .error .malformed

def readNumber (text : List Char) : Except Flaw (Number × List Char) := do
  let (numeral, text) ← readNumeral text
  let number ← numeral.value
  return (number, text)

/-! ### What stands in the text -/

/-- A value as far as a reader that cannot use it looks at it. -/
inductive Shape where
  | null
  | boolean (value : Bool)
  | number (value : Number)
  | text (value : String)
  | list
  | object
  deriving DecidableEq, Repr

def readLetters : List Char → List Char → Except Flaw (List Char)
  | [], text => .ok text
  | _, [] => .error .truncated
  | letter :: letters, c :: text =>
    if c = letter then readLetters letters text else .error .malformed

/-- The shape of the value at the beginning of a text. -/
def readShape (text : List Char) : Except Flaw Shape :=
  match text with
  | [] => .error .truncated
  | 'n' :: rest => (readLetters ['u', 'l', 'l'] rest).map fun _ => .null
  | 't' :: rest => (readLetters ['r', 'u', 'e'] rest).map fun _ => .boolean true
  | 'f' :: rest => (readLetters ['a', 'l', 's', 'e'] rest).map fun _ => .boolean false
  | '"' :: rest => (readString rest).map fun r => .text (String.ofList r.1)
  | '[' :: _ => .ok .list
  | '\x7b' :: _ => .ok .object
  | c :: _ =>
    if c = '-' ∨ c.isDigit then (readNumber text).map fun r => .number r.1
    else .error .malformed

def Number.describe : Number → String
  | natural value => "integer `" ++ value.repr ++ "`"
  | negative magnitude => "integer `-" ++ magnitude.repr ++ "`"
  | real isNegative magnitude =>
    "floating point `" ++ (if isNegative then "-" else "")
      ++ String.ofList magnitude.text ++ "`"

def Shape.describe : Shape → String
  | null => "null"
  | boolean true => "boolean `true`"
  | boolean false => "boolean `false`"
  | number value => value.describe
  | text value => "string " ++ Text.quoted value
  | list => "sequence"
  | object => "map"

end Json
end PL0
