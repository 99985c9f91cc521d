import PL0.Instruction
import PL0.Symbol

/-!
What a run reports while it goes on. Each event has a severity, and a listener keeps those
that are severe enough for it.
-/

namespace PL0

inductive Severity where
  | debug | info | warn
  deriving DecidableEq, Repr

def Severity.rank : Severity → Nat
  | debug => 0
  | info => 1
  | warn => 2

inductive Event where
  /-- So many tokens were read from the file. -/
  | loaded (count : Nat) (path : String)
  /-- A symbol was declared. -/
  | declared (symbol : Symbol)
  /-- The branch with the given index got its target. -/
  | patched (index : Nat) (op : Opcode) (target : Word)
  /-- The compilation stopped with an error, after so many instructions and symbols. If the error is
  a fault, its number is told. -/
  | aborted (error : CompileError) (fault : Option Nat) (emitted : Nat) (declared : Nat)
  /-- The compilation came to its end. -/
  | finished (tokens : Nat) (instructions : Nat) (symbols : Nat)
  deriving DecidableEq, Repr

namespace Event

def severity : Event → Severity
  | loaded .. | finished .. => .info
  | declared _ | patched .. | aborted .. => .debug

def message : Event → String
  | loaded .. => "tokens loaded"
  | declared _ => "declare"
  | patched .. => "patch"
  | aborted error .. => "compilation aborted: " ++ error.message
  | finished .. => "compilation finished"

/-- Whether a listener for events of at least the given severity keeps the event. -/
def reaches (event : Event) (severity : Severity) : Bool :=
  severity.rank ≤ event.severity.rank

end Event
end PL0
