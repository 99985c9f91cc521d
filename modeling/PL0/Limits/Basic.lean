/-!
The limits of a compilation.
-/

namespace PL0

structure Limits where
  maxSymbols : Nat := 500
  maxCodeLength : Nat := 1000
  maxTokens : Nat := 1000
  deriving DecidableEq, Repr

end PL0
