import PL0.Json.Reader
import PL0.Limits.Basic

/-!
Limits as JSON text: an object whose members set some of the limits, each at most once, or a list of
the first few limits in their order. Limits that are not given keep their defaults. The text is read
from the left, and the first thing that is wrong is reported.
-/

namespace PL0
namespace Limits

open Json (Flaw Shape Number skipSpace)

inductive Field where
  | maxSymbols | maxCodeLength | maxTokens
  deriving DecidableEq, Repr

namespace Field

def all : List Field := [maxSymbols, maxCodeLength, maxTokens]

def name : Field → String
  | maxSymbols => "max_symbols"
  | maxCodeLength => "max_code_length"
  | maxTokens => "max_tokens"

def ofName? (name : String) : Option Field :=
  all.find? (·.name == name)

end Field

def set (limits : Limits) (field : Field) (value : Nat) : Limits :=
  match field with
  | .maxSymbols => { limits with maxSymbols := value }
  | .maxCodeLength => { limits with maxCodeLength := value }
  | .maxTokens => { limits with maxTokens := value }

inductive ReadError where
  | flaw (flaw : Flaw)
  | unknownField (name : String)
  | repeatedField (field : Field)
  /-- A limit that is a negative integer. -/
  | negativeLimit (magnitude : Nat)
  /-- A limit that is no integer. -/
  | notLimit (found : Shape)
  /-- Neither an object nor a list. -/
  | notLimits (found : Shape)
  deriving DecidableEq, Repr

def ReadError.message : ReadError → String
  | flaw .malformed => "<Syntax>"
  | flaw .truncated => "<Eof>"
  | unknownField name =>
    "unknown field `" ++ name
      ++ "`, expected one of `max_symbols`, `max_code_length`, `max_tokens`"
  | repeatedField field => "duplicate field `" ++ field.name ++ "`"
  | negativeLimit magnitude =>
    "invalid value: " ++ (Number.negative magnitude).describe ++ ", expected usize"
  | notLimit found => "invalid type: " ++ found.describe ++ ", expected usize"
  | notLimits found => "invalid type: " ++ found.describe ++ ", expected struct CompilerConfig"

/-- A part of the text that only has to be well-formed. -/
def part {α : Type} (read : Except Flaw α) : Except ReadError α :=
  read.mapError .flaw

/-- A limit, with space in front. -/
def readLimit (text : List Char) : Except ReadError (Nat × List Char) :=
  let text := skipSpace text
  if text.head?.any fun c => c = '-' ∨ c.isDigit then do
    match ← part (Json.readNumber text) with
    | (.natural value, text) => return (value, text)
    | (.negative magnitude, _) => throw (.negativeLimit magnitude)
    | (number, _) => throw (.notLimit (.number number))
  else do
    let shape ← part (Json.readShape text)
    throw (.notLimit shape)

def readColon (text : List Char) : Except ReadError (List Char) :=
  match skipSpace text with
  | ':' :: text => .ok text
  | [] => .error (.flaw .truncated)
  | _ => .error (.flaw .malformed)

/-- The start of the next item, with the comma in front of it if it is not the first. -/
def readSeparator (first : Bool) (text : List Char) : Except ReadError (List Char) :=
  if first then .ok text
  else
    match text with
    | ',' :: text => .ok (skipSpace text)
    | _ => .error (.flaw .malformed)

/-- The key of a member. -/
def readKey (text : List Char) : Except ReadError (Field × List Char) :=
  match text with
  | '"' :: text => do
    let (name, text) ← part (Json.readString text)
    match Field.ofName? (String.ofList name) with
    | some field => return (field, text)
    | none => throw (.unknownField (String.ofList name))
  | [] => .error (.flaw .truncated)
  | _ => .error (.flaw .malformed)

/-- The members of an object and its closing brace; `unset` are the fields not met so far. -/
def readMembers (first : Bool) (unset : List Field) (limits : Limits) (text : List Char) :
    Except ReadError (Limits × List Char) :=
  match skipSpace text with
  | '\x7d' :: text => .ok (limits, text)
  | [] => .error (.flaw .truncated)
  | text => do
    let text ← readSeparator first text
    let (field, text) ← readKey text
    if field ∈ unset then
      let text ← readColon text
      let (value, text) ← readLimit text
      readMembers false (unset.erase field) (limits.set field value) text
    else throw (.repeatedField field)
termination_by unset.length
decreasing_by
  have hpos := List.length_pos_of_mem ‹field ∈ unset›
  rw [List.length_erase_of_mem ‹field ∈ unset›]
  omega

/-- The elements of a list and its closing bracket; `unset` are the fields that they set. -/
def readElements (first : Bool) (unset : List Field) (limits : Limits) (text : List Char) :
    Except ReadError (Limits × List Char) :=
  match skipSpace text, unset with
  | ']' :: text, _ => .ok (limits, text)
  | [], _ => .error (.flaw .truncated)
  | _, [] => .error (.flaw .malformed)
  | text, field :: unset => do
    let text ← readSeparator first text
    if text.head? = some ']' then throw (.flaw .malformed)
    let (value, text) ← readLimit text
    readElements false unset (limits.set field value) text

/-- Limits are all that the text holds. -/
def readEnd (read : Limits × List Char) : Except ReadError Limits :=
  if (skipSpace read.2).isEmpty then .ok read.1 else .error (.flaw .malformed)

def ofJson (text : String) : Except ReadError Limits :=
  match skipSpace text.toList with
  | '[' :: text => readElements true Field.all {} text >>= readEnd
  | '\x7b' :: text => readMembers true Field.all {} text >>= readEnd
  | text => do
    let shape ← part (Json.readShape text)
    throw (.notLimits shape)

end Limits
end PL0
