import PL0.Text.Blank
import PL0.Token.Basic

/-!
Token records. A text holds its tokens as records made of fields: the code of the kind, followed by
the name for an identifier and by the value for a number. Records are counted from 1, and reading
stops at the first bad one.
-/

namespace PL0

inductive RecordError where
  | badKind (record : Nat) (field : String)
  | unknownKind (record : Nat) (code : Word)
  | missingField (record : Nat) (kind : Kind)
  | badNumber (record : Nat) (field : String)
  deriving DecidableEq, Repr

namespace RecordError

def message : RecordError → String
  | badKind record field =>
    "record " ++ record.repr ++ ": token kind `" ++ field ++ "` is not an integer"
  | unknownKind record code => "record " ++ record.repr ++ ": unknown token kind " ++ code.text
  | missingField record kind =>
    "record " ++ record.repr ++ ": " ++ kind.describe ++ " record is missing its value field"
  | badNumber record field =>
    "record " ++ record.repr ++ ": number value `" ++ field ++ "` is not an integer"

end RecordError

namespace Token

/-- The tokens of a list of fields, whose first record has number `record`. -/
def ofFields (record : Nat) : List (List Char) → Except RecordError (List Token)
  | [] => .ok []
  | field :: rest =>
    match Word.ofDigits? field with
    | none => .error (.badKind record (String.ofList field))
    | some code =>
      match Kind.ofCode? code.toInt with
      | none => .error (.unknownKind record code)
      | some .ident =>
        match rest with
        | [] => .error (.missingField record .ident)
        | name :: rest => (ofFields (record + 1) rest).map (ident (String.ofList name) :: ·)
      | some .number =>
        match rest with
        | [] => .error (.missingField record .number)
        | field :: rest =>
          match Word.ofDigits? field with
          | none => .error (.badNumber record (String.ofList field))
          | some value => (ofFields (record + 1) rest).map (number value :: ·)
      | some kind => (ofFields (record + 1) rest).map (plain kind :: ·)

/-- The tokens that a text of records holds. -/
def ofRecords (text : String) : Except RecordError (List Token) :=
  ofFields 1 (Text.fields text.toList)

end Token
end PL0
