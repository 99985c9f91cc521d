import PL0.Text.Decimal

/-!
JSON documents and their indented form: two blanks for each level, one item on a line, nothing
between the brackets of an empty list or object. In strings only the quote, the backslash and the
control characters below U+0020 are escaped.
-/

namespace PL0

inductive Json where
  | bool (value : Bool)
  | int (value : Int)
  | str (value : String)
  | arr (items : List Json)
  | obj (members : List (String × Json))
  deriving Repr

namespace Json

def hexDigit (n : Nat) : Char :=
  Nat.digitChar (n % 16)

/-- A character as it stands in a string. -/
def escape (c : Char) : List Char :=
  match c with
  | '"' => ['\\', '"']
  | '\\' => ['\\', '\\']
  | '\x08' => ['\\', 'b']
  | '\x0c' => ['\\', 'f']
  | '\n' => ['\\', 'n']
  | '\r' => ['\\', 'r']
  | '\t' => ['\\', 't']
  | c =>
    if c.toNat < 0x20 then ['\\', 'u', '0', '0', hexDigit (c.toNat / 16), hexDigit c.toNat]
    else [c]

def quote (s : String) : List Char :=
  '"' :: s.toList.flatMap escape ++ ['"']

def margin (depth : Nat) : List Char :=
  List.replicate (2 * depth) ' '

/-- Items between brackets, one on a line. -/
def bracket (opening closing : Char) (depth : Nat) (items : List (List Char)) : List Char :=
  if items.isEmpty then [opening, closing]
  else
    opening :: [','].intercalate (items.map fun item => '\n' :: margin (depth + 1) ++ item)
      ++ '\n' :: margin depth ++ [closing]

mutual

/-- The indented form of a document that stands inside `depth` brackets. -/
def pretty (depth : Nat) : Json → List Char
  | bool true => ['t', 'r', 'u', 'e']
  | bool false => ['f', 'a', 'l', 's', 'e']
  | int value => Decimal.ofInt value
  | str value => quote value
  | arr items => bracket '[' ']' depth (prettyItems (depth + 1) items)
  | obj members => bracket '\x7b' '\x7d' depth (prettyMembers (depth + 1) members)
termination_by structural document => document

def prettyItems (depth : Nat) : List Json → List (List Char)
  | [] => []
  | item :: items => item.pretty depth :: prettyItems depth items
termination_by structural items => items

def prettyMembers (depth : Nat) : List (String × Json) → List (List Char)
  | [] => []
  | member :: members => prettyMember depth member :: prettyMembers depth members
termination_by structural members => members

def prettyMember (depth : Nat) : String × Json → List Char
  | (key, value) => quote key ++ ':' :: ' ' :: value.pretty depth
termination_by structural member => member

end

end Json
end PL0
