import PL0.Json.Basic
import PL0.Json.Reader
import PL0.Proofs.Text.Numeral

/-!
This module contains how strings and numbers can be spelled in JSON. A character has up to four
spellings, and a number is spelled with or without a fraction and an exponent. Every spelling is
read as what it spells, up to the end of it.
-/

namespace PL0
namespace Json

variable {c : Char} {text rest : List Char}

/-! ### Strings -/

/-- The letters that can stand behind a backslash, with what they stand for. -/
def escapes : List (Char × Char) :=
  [('"', '"'), ('\\', '\\'), ('/', '/'), ('b', '\x08'), ('f', '\x0c'), ('n', '\n'), ('r', '\r'),
   ('t', '\t')]

/-- A hexadecimal digit, in either case. -/
def IsHexDigit (c : Char) (value : Nat) : Prop :=
  value < 16 ∧ (c = value.digitChar ∨ c = value.digitChar.toUpper)

/-- Four hexadecimal digits. -/
inductive Hex : Nat → List Char → Prop where
  | intro {a b c d : Char} {i j k l : Nat} (ha : IsHexDigit a i) (hb : IsHexDigit b j)
      (hc : IsHexDigit c k) (hd : IsHexDigit d l) :
      Hex (((i * 16 + j) * 16 + k) * 16 + l) [a, b, c, d]

/--
How a character can stand in a string: as it is, by a letter, by its code, or by the codes of its
two surrogates.
-/
inductive CharSpelling (c : Char) : List Char → Prop where
  | plain (hcontrol : 0x20 ≤ c.toNat) (hquote : c ≠ '"') (hbackslash : c ≠ '\\') :
      CharSpelling c [c]
  | letter {letter : Char} (h : (letter, c) ∈ escapes) : CharSpelling c ['\\', letter]
  | code {digits : List Char} (h : Hex c.toNat digits) : CharSpelling c ('\\' :: 'u' :: digits)
  | pair {high low : List Char} (hrange : 0x10000 ≤ c.toNat)
      (hhigh : Hex (0xD800 + (c.toNat - 0x10000) / 0x400) high)
      (hlow : Hex (0xDC00 + (c.toNat - 0x10000) % 0x400) low) :
      CharSpelling c ('\\' :: 'u' :: high ++ '\\' :: 'u' :: low)

inductive StringSpelling : List Char → List Char → Prop where
  | nil : StringSpelling [] []
  | cons {c : Char} {cs piece text : List Char} (h : CharSpelling c piece)
      (htext : StringSpelling cs text) : StringSpelling (c :: cs) (piece ++ text)

theorem hexValue?_of_isHexDigit {value : Nat} (h : IsHexDigit c value) :
    hexValue? c = some value := by
  obtain ⟨hlt, rfl | rfl⟩ := h
  · revert value
    decide
  · revert value
    decide

theorem readHex_append {value : Nat} (h : Hex value text) (rest : List Char) :
    readHex (text ++ rest) = .ok (value, rest) := by
  cases h with
  | intro ha hb hc hd =>
    simp only [List.cons_append, List.nil_append, readHex, hexValue?_of_isHexDigit ha,
      hexValue?_of_isHexDigit hb, hexValue?_of_isHexDigit hc, hexValue?_of_isHexDigit hd]

theorem isSurrogate_toNat (c : Char) :
    isLowSurrogate c.toNat = false ∧ isHighSurrogate c.toNat = false := by
  have hvalid : c.toNat < 0xD800 ∨ 0xDFFF < c.toNat ∧ c.toNat < 0x110000 := c.valid
  simp only [isLowSurrogate, isHighSurrogate, Bool.and_eq_false_imp, decide_eq_true_eq,
    decide_eq_false_iff_not, Nat.not_le]
  omega

theorem readCode_append (h : Hex c.toNat text) (rest : List Char) :
    readCode (text ++ rest) = .ok (c, rest) := by
  obtain ⟨hlow, hhigh⟩ := isSurrogate_toNat c
  simp [readCode, readHex_append h, hlow, hhigh, Char.ofNat_toNat]

theorem readCode_pair {high low : List Char} (hrange : 0x10000 ≤ c.toNat)
    (hhigh : Hex (0xD800 + (c.toNat - 0x10000) / 0x400) high)
    (hlow : Hex (0xDC00 + (c.toNat - 0x10000) % 0x400) low) (rest : List Char) :
    readCode (high ++ '\\' :: 'u' :: low ++ rest) = .ok (c, rest) := by
  have hlt : c.toNat < 0x110000 := by
    have hvalid : c.toNat < 0xD800 ∨ 0xDFFF < c.toNat ∧ c.toNat < 0x110000 := c.valid
    omega
  generalize hoffset : c.toNat - 0x10000 = offset at hhigh hlow
  have hisHigh : isHighSurrogate (0xD800 + offset / 0x400) = true := by
    simp only [isHighSurrogate, Bool.and_eq_true, decide_eq_true_eq]
    omega
  have hnotLow : isLowSurrogate (0xD800 + offset / 0x400) = false := by
    simp only [isLowSurrogate, Bool.and_eq_false_imp, decide_eq_true_eq, decide_eq_false_iff_not]
    omega
  have hisLow : isLowSurrogate (0xDC00 + offset % 0x400) = true := by
    simp only [isLowSurrogate, Bool.and_eq_true, decide_eq_true_eq]
    omega
  have hcode : 0x10000 + offset / 0x400 * 0x400 + offset % 0x400 = c.toNat := by
    omega
  rw [List.append_assoc, readCode, readHex_append hhigh]
  simp [hnotLow, hisHigh, readLowSurrogate, readHex_append hlow, hisLow, hcode, Char.ofNat_toNat]

theorem readString_escape {piece : List Char} (h : readEscape (piece ++ rest) = .ok (c, rest)) :
    readString ('\\' :: piece ++ rest) = (readString rest).map fun r => (c :: r.1, r.2) := by
  rw [List.cons_append, readString]
  split
  · next hflaw =>
    rw [h] at hflaw
    cases hflaw
  · next hread =>
    rw [h] at hread
    cases hread
    rfl

theorem readString_append (h : CharSpelling c text) (rest : List Char) :
    readString (text ++ rest) = (readString rest).map fun r => (c :: r.1, r.2) := by
  cases h with
  | plain hcontrol hquote hbackslash =>
    rw [List.singleton_append, readString, if_neg (Nat.not_lt.2 hcontrol)]
    · exact hquote
    · exact hbackslash
  | letter h =>
    apply readString_escape
    simp only [escapes, List.mem_cons, Prod.mk.injEq, List.not_mem_nil, or_false] at h
    rcases h with ⟨rfl, rfl⟩ | ⟨rfl, rfl⟩ | ⟨rfl, rfl⟩ | ⟨rfl, rfl⟩ | ⟨rfl, rfl⟩ | ⟨rfl, rfl⟩ |
      ⟨rfl, rfl⟩ | ⟨rfl, rfl⟩
    all_goals rfl
  | code h =>
    apply readString_escape
    exact readCode_append h rest
  | pair hrange hhigh hlow =>
    apply readString_escape
    exact readCode_pair hrange hhigh hlow rest

theorem readString_of_spelling {cs : List Char} (h : StringSpelling cs text) (rest : List Char) :
    readString (text ++ '"' :: rest) = .ok (cs, rest) := by
  induction h with
  | nil =>
    rw [List.nil_append, readString]
  | cons hchar hchars ih =>
    rw [List.append_assoc, readString_append hchar, ih]
    rfl

theorem hex_control {n : Nat} (h : n < 0x20) :
    Hex n ['0', '0', hexDigit (n / 16), hexDigit n] := by
  have hdigit (m : Nat) : IsHexDigit (hexDigit m) (m % 16) := ⟨Nat.mod_lt m (by decide), .inl rfl⟩
  have hzero : IsHexDigit '0' 0 := ⟨by decide, .inl rfl⟩
  have hvalue : ((0 * 16 + 0) * 16 + n / 16 % 16) * 16 + n % 16 = n := by omega
  have hhex := Hex.intro hzero hzero (hdigit (n / 16)) (hdigit n)
  rwa [hvalue] at hhex

theorem charSpelling_escape (c : Char) : CharSpelling c (escape c) := by
  have hletter {letter d : Char} (hmem : (letter, d) ∈ escapes) : CharSpelling d ['\\', letter] :=
    .letter hmem
  unfold escape
  split
  case h_8 hquote hbackslash _ _ _ _ _ =>
    split
    · next hcontrol => exact .code (hex_control hcontrol)
    · next hcontrol => exact .plain (Nat.not_lt.1 hcontrol) hquote hbackslash
  all_goals exact hletter (by decide)

theorem stringSpelling_flatMap_escape (cs : List Char) :
    StringSpelling cs (cs.flatMap escape) := by
  induction cs with
  | nil => exact .nil
  | cons c cs ih => exact .cons (charSpelling_escape c) ih

/-! ### Numbers -/

def IsDigits (digits : List Char) : Prop :=
  digits ≠ [] ∧ ∀ c ∈ digits, c.isDigit = true

inductive FractionSpelling : List Char → List Char → Prop where
  | none : FractionSpelling [] []
  | some {digits : List Char} (h : IsDigits digits) : FractionSpelling digits ('.' :: digits)

inductive SignSpelling : Bool → List Char → Prop where
  | none : SignSpelling false []
  | plus : SignSpelling false ['+']
  | minus : SignSpelling true ['-']

inductive ExponentSpelling : Option (Bool × List Char) → List Char → Prop where
  | none : ExponentSpelling none []
  | some {mark : Char} {isNegative : Bool} {sign digits : List Char}
      (hmark : mark = 'e' ∨ mark = 'E') (hsign : SignSpelling isNegative sign)
      (h : IsDigits digits) : ExponentSpelling (some (isNegative, digits)) (mark :: sign ++ digits)

/-- Digits without a zero in front of others. -/
def IsWhole (digits : List Char) : Prop :=
  IsDigits digits ∧ (digits.head? = some '0' → digits = ['0'])

inductive NumeralSpelling (n : Numeral) : List Char → Prop where
  | intro {fraction exponent : List Char} (hwhole : IsWhole n.whole)
      (hfraction : FractionSpelling n.fraction fraction)
      (hexponent : ExponentSpelling n.exponent exponent) :
      NumeralSpelling n
        ((if n.isNegative then ['-'] else []) ++ (n.whole ++ (fraction ++ exponent)))

/-- The text does not go on with a character of the given class. -/
def Stops (p : Char → Bool) (text : List Char) : Prop :=
  text.head?.any p = false

theorem stops_nil (p : Char → Bool) : Stops p [] := rfl

theorem stops_cons {p : Char → Bool} : Stops p (c :: text) ↔ p c = false := Iff.rfl

theorem Stops.mono {p q : Char → Bool} (h : Stops p text) (hle : ∀ c, p c = false → q c = false) :
    Stops q text := by
  cases text with
  | nil => exact stops_nil q
  | cons c text => exact stops_cons.2 (hle c (stops_cons.1 h))

theorem takeWhile_append_of_stops {p : Char → Bool} (h : ∀ c ∈ text, p c = true)
    (hrest : Stops p rest) : (text ++ rest).takeWhile p = text := by
  rw [List.takeWhile_append_of_pos h]
  cases rest with
  | nil => exact List.append_nil text
  | cons c rest => rw [List.takeWhile_cons_of_neg (by simp [stops_cons.1 hrest]), List.append_nil]

theorem dropWhile_append_of_stops {p : Char → Bool} (h : ∀ c ∈ text, p c = true)
    (hrest : Stops p rest) : (text ++ rest).dropWhile p = rest := by
  rw [List.dropWhile_append_of_pos h]
  cases rest with
  | nil => rfl
  | cons c rest => rw [List.dropWhile_cons_of_neg (by simp [stops_cons.1 hrest])]

/-- What can stand behind the digits in front of the exponent, if the number is to go on. -/
def continuesFraction (c : Char) : Bool :=
  c.isDigit || c == '.'

def continuesNumber (c : Char) : Bool :=
  continuesFraction c || c == 'e' || c == 'E'

theorem isDigit_of_continuesFraction (h : continuesFraction c = false) : c.isDigit = false :=
  (Bool.or_eq_false_iff.1 h).1

theorem continuesFraction_of_continuesNumber (h : continuesNumber c = false) :
    continuesFraction c = false :=
  (Bool.or_eq_false_iff.1 (Bool.or_eq_false_iff.1 h).1).1

theorem IsDigits.head_ne (h : IsDigits (c :: text)) {d : Char} (hd : d.isDigit = false) :
    c ≠ d := by
  rintro rfl
  rw [h.2 c List.mem_cons_self] at hd
  cases hd

theorem readDigits_append (h : IsDigits text) (hrest : Stops Char.isDigit rest) :
    readDigits (text ++ rest) = .ok (text, rest) := by
  obtain ⟨hne, hdigits⟩ := h
  obtain ⟨c, tail, rfl⟩ := List.exists_cons_of_ne_nil hne
  have htake := takeWhile_append_of_stops hdigits hrest
  have hdrop := dropWhile_append_of_stops hdigits hrest
  rw [List.cons_append] at htake hdrop ⊢
  rw [readDigits, if_pos (hdigits c List.mem_cons_self), htake, hdrop]

theorem readWhole_append (h : IsWhole text) (hrest : Stops Char.isDigit rest) :
    readWhole (text ++ rest) = .ok (text, rest) := by
  obtain ⟨hdigits, hzero⟩ := h
  have hread := readDigits_append hdigits hrest
  obtain ⟨c, tail, rfl⟩ := List.exists_cons_of_ne_nil hdigits.1
  by_cases hc : c = '0'
  · subst hc
    obtain ⟨-, rfl⟩ := List.cons.inj (hzero rfl)
    rw [List.singleton_append, readWhole, hrest]
    rfl
  · rw [List.cons_append] at hread ⊢
    rw [readWhole, hread]
    intro rest' heq
    exact hc (List.cons.inj heq).1

theorem readFraction_append {fraction : List Char} (h : FractionSpelling fraction text)
    (hrest : Stops continuesFraction rest) :
    readFraction (text ++ rest) = .ok (fraction, rest) := by
  cases h with
  | none =>
    rw [List.nil_append, readFraction]
    rintro rest' rfl
    cases hrest
  | some hdigits =>
    have hstops : Stops Char.isDigit rest := hrest.mono fun _ => isDigit_of_continuesFraction
    rw [List.cons_append, readFraction, readDigits_append hdigits hstops]

theorem readSigned_append {isNegative : Bool} {sign digits : List Char}
    (hsign : SignSpelling isNegative sign) (hdigits : IsDigits digits)
    (hrest : Stops Char.isDigit rest) :
    readSigned (sign ++ digits ++ rest) = .ok ((isNegative, digits), rest) := by
  have hread := readDigits_append hdigits hrest
  cases hsign with
  | none =>
    obtain ⟨c, tail, rfl⟩ := List.exists_cons_of_ne_nil hdigits.1
    rw [List.cons_append] at hread
    rw [List.nil_append, List.cons_append, readSigned, hread]
    · rfl
    · intro rest' heq
      exact hdigits.head_ne (by decide) (List.cons.inj heq).1
    · intro rest' heq
      exact hdigits.head_ne (by decide) (List.cons.inj heq).1
  | plus =>
    rw [List.singleton_append, List.cons_append, readSigned, hread]
    rfl
  | minus =>
    rw [List.singleton_append, List.cons_append, readSigned, hread]
    rfl

theorem readExponent_append {exponent : Option (Bool × List Char)}
    (h : ExponentSpelling exponent text) (hrest : Stops continuesNumber rest) :
    readExponent (text ++ rest) = .ok (exponent, rest) := by
  cases h with
  | none =>
    rw [List.nil_append, readExponent]
    · rintro rest' rfl
      cases hrest
    · rintro rest' rfl
      cases hrest
  | some hmark hsign hdigits =>
    have hstops : Stops Char.isDigit rest := hrest.mono fun _ hc =>
      isDigit_of_continuesFraction (continuesFraction_of_continuesNumber hc)
    have hread := readSigned_append hsign hdigits hstops
    obtain rfl | rfl := hmark
    · rw [List.cons_append, List.cons_append, readExponent, hread]
      rfl
    · rw [List.cons_append, List.cons_append, readExponent, hread]
      rfl

theorem stops_exponent_append {exponent : Option (Bool × List Char)}
    (h : ExponentSpelling exponent text) (hrest : Stops continuesNumber rest) :
    Stops continuesFraction (text ++ rest) := by
  cases h with
  | none => exact hrest.mono fun _ => continuesFraction_of_continuesNumber
  | some hmark hsign hdigits =>
    obtain rfl | rfl := hmark
    · rfl
    · rfl

theorem stops_fraction_append {fraction : List Char} (h : FractionSpelling fraction text)
    (hrest : Stops continuesFraction rest) : Stops Char.isDigit (text ++ rest) := by
  cases h with
  | none => exact hrest.mono fun _ => isDigit_of_continuesFraction
  | some hdigits => rfl

theorem readNumeral_append {n : Numeral} (h : NumeralSpelling n text)
    (hrest : Stops continuesNumber rest) : readNumeral (text ++ rest) = .ok (n, rest) := by
  cases h with
  | @intro fraction exponent hwhole hfraction hexponent =>
    have hstops := stops_exponent_append hexponent hrest
    have hread : readUnsigned n.isNegative (n.whole ++ (fraction ++ exponent) ++ rest) =
        .ok (n, rest) := by
      rw [List.append_assoc, List.append_assoc, readUnsigned,
        readWhole_append hwhole (stops_fraction_append hfraction hstops)]
      simp only [bind, Except.bind, readFraction_append hfraction hstops,
        readExponent_append hexponent hrest]
      rfl
    cases hsign : n.isNegative with
    | true =>
      rw [hsign] at hread
      rw [if_pos rfl, List.singleton_append, List.cons_append, readNumeral, hread]
    | false =>
      rw [hsign] at hread
      obtain ⟨c, tail, hcons⟩ := List.exists_cons_of_ne_nil hwhole.1.1
      rw [if_neg (by decide), List.nil_append, hcons, List.cons_append, List.cons_append,
        readNumeral]
      · rwa [hcons, List.cons_append, List.cons_append] at hread
      · intro rest' heq
        have hdigits := hwhole.1
        rw [hcons] at hdigits
        exact hdigits.head_ne (by decide) (List.cons.inj heq).1

/-! ### Integers -/

def Numeral.ofInt : Int → Numeral
  | .ofNat n => ⟨false, Nat.toDigits 10 n, [], none⟩
  | .negSucc n => ⟨true, Nat.toDigits 10 (n + 1), [], none⟩

/-- The value of a number without fraction and exponent. -/
def Numeral.int? (n : Numeral) : Option Int :=
  if n.fraction = [] ∧ n.exponent = none then
    let magnitude : Int := Nat.ofDigitChars 10 n.whole 0
    some (if n.isNegative then - magnitude else magnitude)
  else none

theorem Numeral.int?_ofInt (i : Int) : (ofInt i).int? = some i := by
  cases i with
  | ofNat n => simp [int?, ofInt, Nat.ofDigitChars_ten_toDigits]
  | negSucc n => simp [int?, ofInt, Nat.ofDigitChars_ten_toDigits, Int.negSucc_eq]

theorem isWhole_toDigits (n : Nat) : IsWhole (Nat.toDigits 10 n) := by
  have hdigits : IsDigits (Nat.toDigits 10 n) :=
    ⟨Nat.toDigits_ne_nil, fun c => Decimal.isDigit_of_mem_toDigits⟩
  refine ⟨hdigits, ?_⟩
  intro hhead
  obtain ⟨cs, hcons⟩ := List.head?_eq_some_iff.1 hhead
  by_cases hcs : cs = []
  · rw [hcons, hcs]
  · -- Without the zero, the same number would be written with fewer digits.
    have hvalue : Nat.ofDigitChars 10 cs 0 = n := by
      have hall : Nat.ofDigitChars 10 ('0' :: cs) 0 = n := by
        rw [← hcons, Nat.ofDigitChars_ten_toDigits]
      exact hall
    have htail : ∀ c ∈ cs, c.isDigit = true := by
      intro c hc
      apply hdigits.2
      rw [hcons]
      exact List.mem_cons_of_mem _ hc
    obtain ⟨zeros, hpadded⟩ := Decimal.exists_eq_padded hcs htail
    have hlength := congrArg List.length hpadded
    rw [hvalue, Decimal.padded, List.length_append, hcons, List.length_cons] at hlength
    omega

theorem numeralSpelling_ofInt (i : Int) : NumeralSpelling (.ofInt i) (Decimal.ofInt i) := by
  cases i with
  | ofNat n =>
    have hspelling :
        NumeralSpelling (.ofInt (.ofNat n)) ([] ++ (Nat.toDigits 10 n ++ ([] ++ []))) :=
      .intro (isWhole_toDigits n) .none .none
    rwa [List.nil_append, List.nil_append, List.append_nil] at hspelling
  | negSucc n =>
    have hspelling : NumeralSpelling (.ofInt (.negSucc n))
        (['-'] ++ (Nat.toDigits 10 (n + 1) ++ ([] ++ []))) :=
      .intro (isWhole_toDigits (n + 1)) .none .none
    rwa [List.nil_append, List.append_nil] at hspelling

end Json
end PL0
