import PL0.Word

/-!
Tokens. A token has a kind, and carries a name if it is an identifier and a value if it is a number;
tokens of the other kinds leave both unused. Every kind has a code; all kinds but `endOfInput` can
stand in a token record, and those with one spelling have a lexeme.
-/

namespace PL0

inductive Kind where
  | skip | ident | number
  | plus | minus | times | slash
  | eql | neq | lss | leq | gtr | geq
  | lparen | rparen | comma | semicolon | period | becomes
  | beginSym | endSym | ifSym | fiSym | thenSym | whileSym | doSym | callSym | constSym | varSym
  | procSym | writeSym | readSym | evenSym
  | endOfInput
  deriving DecidableEq, Repr

namespace Kind

/-- The kinds of token records, in the order of their codes. -/
def records : List Kind :=
  [skip, ident, number, plus, minus, times, slash, eql, neq, lss, leq, gtr, geq, lparen, rparen,
   comma, semicolon, period, becomes, beginSym, endSym, ifSym, fiSym, thenSym, whileSym, doSym,
   callSym, constSym, varSym, procSym, writeSym, readSym, evenSym]

def code : Kind → Nat
  | endOfInput => 0
  | skip => 1
  | ident => 2
  | number => 3
  | plus => 4
  | minus => 5
  | times => 6
  | slash => 7
  | eql => 8
  | neq => 9
  | lss => 10
  | leq => 11
  | gtr => 12
  | geq => 13
  | lparen => 14
  | rparen => 15
  | comma => 16
  | semicolon => 17
  | period => 18
  | becomes => 19
  | beginSym => 20
  | endSym => 21
  | ifSym => 22
  | fiSym => 23
  | thenSym => 24
  | whileSym => 25
  | doSym => 26
  | callSym => 27
  | constSym => 28
  | varSym => 29
  | procSym => 30
  | writeSym => 31
  | readSym => 32
  | evenSym => 33

/-- The kind of the records with the given code. -/
def ofCode? (code : Int) : Option Kind :=
  records.find? fun k => (k.code : Int) == code

/-- The one spelling of a kind, if it has one. -/
def lexeme? : Kind → Option String
  | skip | ident | number | endOfInput => none
  | plus => some "+"
  | minus => some "-"
  | times => some "*"
  | slash => some "/"
  | eql => some "="
  | neq => some "<>"
  | lss => some "<"
  | leq => some "<="
  | gtr => some ">"
  | geq => some ">="
  | lparen => some "("
  | rparen => some ")"
  | comma => some ","
  | semicolon => some ";"
  | period => some "."
  | becomes => some ":="
  | beginSym => some "begin"
  | endSym => some "end"
  | ifSym => some "if"
  | fiSym => some "fi"
  | thenSym => some "then"
  | whileSym => some "while"
  | doSym => some "do"
  | callSym => some "call"
  | constSym => some "const"
  | varSym => some "var"
  | procSym => some "procedure"
  | writeSym => some "write"
  | readSym => some "read"
  | evenSym => some "even"

def ofLexeme? (lexeme : String) : Option Kind :=
  records.find? fun k => k.lexeme? == some lexeme

/-- How messages name a kind: its spelling in back quotes, or a word for it. -/
def describe (kind : Kind) : String :=
  match kind.lexeme? with
  | some lexeme => "`" ++ lexeme ++ "`"
  | none =>
    match kind with
    | skip => "skip"
    | ident => "identifier"
    | number => "number"
    | _ => "end of input"

theorem mem_records {k : Kind} : k ∈ records ↔ k ≠ endOfInput := by
  cases k <;> decide

theorem ofCode?_code {k : Kind} (h : k ≠ endOfInput) : ofCode? k.code = some k := by
  cases k <;> first | rfl | exact absurd rfl h

theorem code_of_ofCode? {i : Int} {k : Kind} (h : ofCode? i = some k) : (k.code : Int) = i := by
  simpa using List.find?_some h

theorem ofLexeme?_lexeme? {k : Kind} {lexeme : String} (h : k.lexeme? = some lexeme) :
    ofLexeme? lexeme = some k := by
  cases k <;> cases h <;> decide

end Kind

structure Token where
  kind : Kind
  lexeme : String
  value : Word
  deriving DecidableEq, Repr

namespace Token

/-- A token of a kind that carries nothing. -/
def plain (kind : Kind) : Token := ⟨kind, "", 0⟩

def ident (name : String) : Token := ⟨.ident, name, 0⟩

def number (value : Word) : Token := ⟨.number, "", value⟩

/-- What an exhausted stream shows. -/
def endOfInput : Token := plain .endOfInput

end Token
end PL0
