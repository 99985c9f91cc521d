import PL0.Proofs.Json.Spelling

/-!
This module contains how the lexemes of JSON are laid out in a text: one after the other, with space
anywhere between them. The lexemes can be taken off such a text one by one, as each of them tells
where it ends; a number does so if it is followed by a delimiter.
-/

namespace PL0
namespace Json

inductive Lexeme where
  | openArray | closeArray | openObject | closeObject | comma | colon
  | null
  | bool (value : Bool)
  | number (value : Numeral)
  | str (value : String)
  deriving DecidableEq, Repr

namespace Lexeme

/-- The one spelling of a lexeme, if it has one. -/
def letters? : Lexeme → Option (List Char)
  | openArray => some ['[']
  | closeArray => some [']']
  | openObject => some ['\x7b']
  | closeObject => some ['\x7d']
  | comma => some [',']
  | colon => some [':']
  | null => some ['n', 'u', 'l', 'l']
  | bool true => some ['t', 'r', 'u', 'e']
  | bool false => some ['f', 'a', 'l', 's', 'e']
  | number _ | str _ => none

/-- The lexemes that a value can be followed by. -/
def isDelimiter : Lexeme → Bool
  | closeArray | closeObject | comma => true
  | _ => false

/-- The lexemes that a value or a member can begin with. -/
def isOpening : Lexeme → Bool
  | closeArray | closeObject | comma | colon => false
  | _ => true

theorem letters?_comma : comma.letters? = some [','] := rfl

theorem letters?_colon : colon.letters? = some [':'] := rfl

end Lexeme

inductive LexemeSpelling : Lexeme → List Char → Prop where
  | fixed {lexeme : Lexeme} {letters : List Char} (h : lexeme.letters? = some letters) :
      LexemeSpelling lexeme letters
  | number {n : Numeral} {text : List Char} (h : NumeralSpelling n text) :
      LexemeSpelling (.number n) text
  | str {value : String} {text : List Char} (h : StringSpelling value.toList text) :
      LexemeSpelling (.str value) ('"' :: text ++ ['"'])

def IsSpace (text : List Char) : Prop :=
  ∀ c ∈ text, isSpace c = true

theorem isSpace_nil : IsSpace [] := by
  simp [IsSpace]

/-- The text is made of the lexemes in their order. There may be space in front of each of them and
at the end. -/
inductive Laid : List Lexeme → List Char → Prop where
  | nil {space : List Char} (hspace : IsSpace space) : Laid [] space
  | cons {space piece text : List Char} {lexeme : Lexeme} {lexemes : List Lexeme}
      (hspace : IsSpace space) (hpiece : LexemeSpelling lexeme piece) (htext : Laid lexemes text) :
      Laid (lexeme :: lexemes) (space ++ (piece ++ text))

variable {text : List Char} {lexeme : Lexeme} {lexemes more : List Lexeme}

/-- The characters that a number can begin with. -/
def startsNumber (c : Char) : Bool :=
  c == '-' || c.isDigit

theorem NumeralSpelling.exists_cons {n : Numeral} (h : NumeralSpelling n text) :
    ∃ c tail, text = c :: tail ∧ startsNumber c = true := by
  cases h with
  | intro hwhole hfraction hexponent =>
    obtain ⟨c, tail, hcons⟩ := List.exists_cons_of_ne_nil hwhole.1.1
    cases n.isNegative with
    | true => exact ⟨'-', _, rfl, rfl⟩
    | false =>
      rw [hcons]
      refine ⟨c, _, rfl, ?_⟩
      have hdigit := hwhole.1.2 c (by rw [hcons]; exact List.mem_cons_self)
      simp [startsNumber, hdigit]

theorem ne_of_startsNumber {c d : Char} (h : startsNumber c = true)
    (hd : startsNumber d = false) : c ≠ d := by
  rintro rfl
  rw [h] at hd
  cases hd

theorem isSpace_of_startsNumber {c : Char} (h : startsNumber c = true) : isSpace c = false := by
  simp only [isSpace, Bool.or_eq_false_iff, beq_eq_false_iff_ne]
  refine ⟨⟨⟨?_, ?_⟩, ?_⟩, ?_⟩
  all_goals exact ne_of_startsNumber h (by decide)

theorem LexemeSpelling.exists_cons (h : LexemeSpelling lexeme text) :
    ∃ c tail, text = c :: tail ∧ isSpace c = false ∧
      (lexeme.isOpening = true → c ≠ ']' ∧ c ≠ '\x7d') := by
  cases h with
  | fixed h =>
    cases lexeme with
    | number | str => cases h
    | bool value =>
      cases value <;> cases h <;> exact ⟨_, _, rfl, by decide, by decide⟩
    | _ =>
      cases h
      exact ⟨_, _, rfl, by decide, by decide⟩
  | number h =>
    obtain ⟨c, tail, rfl, hstart⟩ := h.exists_cons
    refine ⟨c, tail, rfl, isSpace_of_startsNumber hstart, ?_⟩
    intro _
    exact ⟨ne_of_startsNumber hstart (by decide), ne_of_startsNumber hstart (by decide)⟩
  | str h => exact ⟨'"', _, rfl, by decide, fun _ => by decide⟩

theorem Laid.exists_skipSpace (h : Laid (lexeme :: lexemes) text) :
    ∃ piece rest, LexemeSpelling lexeme piece ∧ Laid lexemes rest ∧
      skipSpace text = piece ++ rest := by
  cases h with
  | cons hspace hpiece htext =>
    refine ⟨_, _, hpiece, htext, dropWhile_append_of_stops hspace ?_⟩
    obtain ⟨c, tail, rfl, hc, _⟩ := hpiece.exists_cons
    exact stops_cons.2 hc

theorem Laid.skipSpace_eq_nil (h : Laid [] text) : skipSpace text = [] := by
  cases h with
  | nil hspace =>
    have hskip := dropWhile_append_of_stops hspace (stops_nil isSpace)
    rwa [List.append_nil] at hskip

theorem Laid.exists_letters (h : Laid (lexeme :: lexemes) text) {letters : List Char}
    (hletters : lexeme.letters? = some letters) :
    ∃ rest, Laid lexemes rest ∧ skipSpace text = letters ++ rest := by
  obtain ⟨piece, rest, hpiece, hrest, hskip⟩ := h.exists_skipSpace
  cases hpiece with
  | fixed h =>
    rw [h] at hletters
    cases hletters
    exact ⟨rest, hrest, hskip⟩
  | number h => cases hletters
  | str h => cases hletters

theorem Laid.exists_mark (h : Laid (lexeme :: lexemes) text) {c : Char}
    (hmark : lexeme.letters? = some [c]) :
    ∃ rest, Laid lexemes rest ∧ skipSpace text = c :: rest :=
  h.exists_letters hmark

theorem LexemeSpelling.exists_readString {value : String} (h : LexemeSpelling (.str value) text)
    (rest : List Char) :
    ∃ body, text ++ rest = '"' :: body ∧ readString body = .ok (value.toList, rest) := by
  cases h with
  | fixed h => cases h
  | @str _ body h =>
    refine ⟨body ++ '"' :: rest, ?_, readString_of_spelling h rest⟩
    rw [List.append_assoc]
    rfl

theorem Laid.exists_str {value : String} (h : Laid (.str value :: lexemes) text) :
    ∃ body rest, Laid lexemes rest ∧ skipSpace text = '"' :: body ∧
      readString body = .ok (value.toList, rest) := by
  obtain ⟨piece, rest, hpiece, hrest, hskip⟩ := h.exists_skipSpace
  obtain ⟨body, hbody, hread⟩ := hpiece.exists_readString rest
  exact ⟨body, rest, hrest, hskip.trans hbody, hread⟩

/-- Nothing that could be taken for more of a number follows. -/
def Delimited (lexemes : List Lexeme) : Prop :=
  ∀ lexeme, lexemes.head? = some lexeme → lexeme.isDelimiter = true

theorem continuesNumber_of_isSpace {c : Char} (h : isSpace c = true) :
    continuesNumber c = false := by
  simp only [isSpace, Bool.or_eq_true, beq_iff_eq] at h
  rcases h with ((rfl | rfl) | rfl) | rfl
  all_goals rfl

theorem stops_space_append {space : List Char} (hspace : IsSpace space)
    (h : Stops continuesNumber text) : Stops continuesNumber (space ++ text) := by
  cases space with
  | nil => exact h
  | cons c space =>
    apply stops_cons.2
    exact continuesNumber_of_isSpace (hspace c List.mem_cons_self)

theorem LexemeSpelling.stops_of_isDelimiter (h : LexemeSpelling lexeme text)
    (hlexeme : lexeme.isDelimiter = true) (rest : List Char) :
    Stops continuesNumber (text ++ rest) := by
  cases h with
  | fixed h =>
    cases lexeme with
    | closeArray | closeObject | comma =>
      cases h
      rfl
    | _ => cases hlexeme
  | number | str => cases hlexeme

theorem Laid.stops (h : Laid more text) (hmore : Delimited more) :
    Stops continuesNumber text := by
  cases h with
  | nil hspace =>
    have hstops := stops_space_append hspace (stops_nil continuesNumber)
    rwa [List.append_nil] at hstops
  | cons hspace hpiece htext =>
    apply stops_space_append hspace
    exact hpiece.stops_of_isDelimiter (hmore _ rfl) _

theorem Laid.exists_number {n : Numeral} (h : Laid (.number n :: more) text)
    (hmore : Delimited more) :
    ∃ rest, Laid more rest ∧ (skipSpace text).head?.any startsNumber = true ∧
      readNumeral (skipSpace text) = .ok (n, rest) := by
  obtain ⟨piece, rest, hpiece, hrest, hskip⟩ := h.exists_skipSpace
  cases hpiece with
  | fixed h => cases h
  | number h =>
    obtain ⟨c, tail, rfl, hstart⟩ := h.exists_cons
    refine ⟨rest, hrest, ?_, ?_⟩
    · rw [hskip]
      exact hstart
    · rw [hskip]
      exact readNumeral_append h (hrest.stops hmore)

theorem Laid.length_le (h : Laid lexemes text) : lexemes.length ≤ text.length := by
  induction h with
  | nil => exact Nat.zero_le _
  | cons hspace hpiece htext ih =>
    obtain ⟨c, tail, rfl, _⟩ := hpiece.exists_cons
    simp only [List.length_append, List.length_cons]
    omega

end Json
end PL0
