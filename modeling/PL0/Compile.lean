import PL0.Limits.Basic
import PL0.Pass
import PL0.Target.Basic

/-!
Compiling a list of tokens: the compiled program or the error, and the events on the way. A stream
that is empty or too long is refused without an event; otherwise the last event tells the outcome.
-/

namespace PL0

/-- The outcome of a compilation and its events in order. -/
structure Report where
  result : Except CompileError TargetProgram
  events : List Event

/-- What a session has produced so far. -/
def Session.target (s : Session) : TargetProgram :=
  ⟨s.code.instructions, s.symbols.entries⟩

def compile (tokens : List Token) (limits : Limits) : Report :=
  match Cursor.ofTokens tokens limits.maxTokens with
  | .error error => ⟨.error error, []⟩
  | .ok cursor =>
    match (Session.start cursor limits.maxSymbols limits.maxCodeLength).pass with
    | (.error error, s) =>
      ⟨.error error,
        s.events ++ [.aborted error (error.fault?.map Fault.code) s.code.size s.symbols.size]⟩
    | (.ok (), s) =>
      ⟨.ok s.target, s.events ++ [.finished tokens.length s.code.size s.symbols.size]⟩

end PL0
