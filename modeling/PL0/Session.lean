import PL0.Code
import PL0.Event
import PL0.Symbol
import PL0.Token.Cursor
import PL0.Util.Monad

/-!
The state of a compilation: the tokens still to be read, the symbols declared, the code emitted, and
the events so far. Each operation either changes the session or fails and leaves nothing changed.
-/

namespace PL0

/-- Where the instructions of the block find the variable. -/
def Symbol.location (symbol : Symbol) : Location :=
  ⟨blockLevel - symbol.level, symbol.address⟩

structure Session where
  cursor : Cursor
  symbols : SymbolTable
  code : Code
  /-- The events so far, the newest first. -/
  log : List Event
  deriving DecidableEq, Repr

namespace Session

open Except (map_eq_ok_iff)

/-- Nothing declared, nothing emitted. -/
def start (cursor : Cursor) (maxSymbols maxCodeLength : Nat) : Session :=
  ⟨cursor, .empty maxSymbols, .empty maxCodeLength, []⟩

def events (s : Session) : List Event :=
  s.log.reverse

/-- The token that is read next. -/
def token (s : Session) : Token :=
  s.cursor.current

def kind (s : Session) : Kind :=
  s.cursor.kind

def advance (s : Session) : Session :=
  { s with cursor := s.cursor.advance }

def emit (s : Session) (instruction : Instruction) : Except CompileError Session :=
  (s.code.emit instruction).map fun r => { s with code := r.2 }

def declare (s : Session) (symbol : Symbol) : Except CompileError Session :=
  (s.symbols.declare symbol).map fun r =>
    { s with symbols := r.2, log := .declared symbol :: s.log }

/-- Directs the branch with the given index to the instruction that is emitted next. -/
def patch (s : Session) (index : Nat) : Except CompileError Session :=
  (s.code.patch index s.code.nextAddress).map fun r =>
    { s with code := r.2, log := .patched index r.1.op r.1.modifier :: s.log }

/-- The symbol that `name` means. -/
def symbol (s : Session) (name : String) : Except CompileError Symbol :=
  match s.symbols.find? name with
  | none => .error (.fault .undeclaredIdentifier)
  | some symbol => .ok symbol

/-- Where the variable is that `name` means. -/
def locationOf (s : Session) (name : String) : Except CompileError Location :=
  match s.symbols.find? name with
  | none => .error (.fault .undeclaredIdentifier)
  | some symbol =>
    match symbol.kind with
    | .const => .error (.fault .assignmentToConstant)
    | .var => .ok symbol.location

@[simp]
theorem cursor_advance (s : Session) : s.advance.cursor = s.cursor.advance := rfl

theorem cursor_emit {s t : Session} {instruction : Instruction}
    (h : s.emit instruction = .ok t) : t.cursor = s.cursor := by
  obtain ⟨r, _, rfl⟩ := map_eq_ok_iff.1 h
  rfl

theorem cursor_declare {s t : Session} {symbol : Symbol}
    (h : s.declare symbol = .ok t) : t.cursor = s.cursor := by
  obtain ⟨r, _, rfl⟩ := map_eq_ok_iff.1 h
  rfl

theorem cursor_patch {s t : Session} {index : Nat}
    (h : s.patch index = .ok t) : t.cursor = s.cursor := by
  obtain ⟨r, _, rfl⟩ := map_eq_ok_iff.1 h
  rfl

end Session
end PL0
