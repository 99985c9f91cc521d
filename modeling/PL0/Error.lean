/-!
What can go wrong in a compilation. A fault is a defect of the program being compiled and has a
number; the other errors are exceeded limits and misplaced patches.
-/

namespace PL0

inductive Fault where
  | unreadableText
  | identifierExpected
  | duplicateSymbol
  | equalsExpected
  | numberExpected
  | semicolonExpected
  | undeclaredIdentifier
  | assignmentToConstant
  | becomesExpected
  | endExpected
  | thenExpected
  | doExpected
  | relationExpected
  | rightParenExpected
  | factorExpected
  | periodExpected
  | fiExpected
  deriving DecidableEq, Repr

namespace Fault

/-- The faults in the order of their numbers. -/
def all : List Fault :=
  [unreadableText, identifierExpected, duplicateSymbol, equalsExpected, numberExpected,
   semicolonExpected, undeclaredIdentifier, assignmentToConstant, becomesExpected, endExpected,
   thenExpected, doExpected, relationExpected, rightParenExpected, factorExpected, periodExpected,
   fiExpected]

def code : Fault → Nat
  | unreadableText => 1
  | identifierExpected => 2
  | duplicateSymbol => 3
  | equalsExpected => 4
  | numberExpected => 5
  | semicolonExpected => 6
  | undeclaredIdentifier => 7
  | assignmentToConstant => 8
  | becomesExpected => 9
  | endExpected => 10
  | thenExpected => 11
  | doExpected => 12
  | relationExpected => 13
  | rightParenExpected => 14
  | factorExpected => 15
  | periodExpected => 16
  | fiExpected => 17

def message : Fault → String
  | unreadableText => "Error: Scanning error detected by lexer (skipsym present)"
  | identifierExpected => "Error: const, var, and read keywords must be followed by identifier"
  | duplicateSymbol => "Error: symbol name has already been declared"
  | equalsExpected => "Error: constants must be assigned with ="
  | numberExpected => "Error: constants must be assigned an integer value"
  | semicolonExpected =>
    "Error: constant and variable declarations must be followed by a semicolon"
  | undeclaredIdentifier => "Error: undeclared identifier"
  | assignmentToConstant => "Error: only variable values may be altered"
  | becomesExpected => "Error: assignment statements must use :="
  | endExpected => "Error: begin must be followed by end"
  | thenExpected => "Error: if must be followed by then"
  | doExpected => "Error: while must be followed by do"
  | relationExpected => "Error: condition must contain comparison operator"
  | rightParenExpected => "Error: right parenthesis must follow left parenthesis"
  | factorExpected =>
    "Error: arithmetic equations must contain operands, parentheses, numbers, or symbols"
  | periodExpected => "Error: program must end with period"
  | fiExpected => "Error: if must be followed by fi"

end Fault

/-- Why an instruction cannot be patched. -/
inductive PatchError where
  | outside
  | notBranch
  | alreadyPatched
  deriving DecidableEq, Repr

def PatchError.message : PatchError → String
  | outside => "no instruction at this address"
  | notBranch => "not a branch instruction"
  | alreadyPatched => "already patched"

inductive CompileError where
  | fault (fault : Fault)
  | emptyStream
  | tooManyTokens (limit : Nat)
  | symbolTableFull (limit : Nat)
  | codeOverflow (limit : Nat)
  | invalidPatch (index : Nat) (cause : PatchError)
  deriving DecidableEq, Repr

namespace CompileError

/-- The fault, if the error is one. -/
def fault? : CompileError → Option Fault
  | fault f => some f
  | _ => none

def message : CompileError → String
  | fault f => f.message
  | emptyStream => "Fatal: token stream is empty"
  | tooManyTokens limit =>
    "Fatal: token stream exceeds the limit of " ++ limit.repr ++ " tokens"
  | symbolTableFull limit =>
    "Fatal: symbol table exceeds the limit of " ++ limit.repr ++ " entries"
  | codeOverflow limit =>
    "Fatal: generated code exceeds the limit of " ++ limit.repr ++ " instructions"
  | invalidPatch index cause =>
    "Fatal: cannot patch instruction " ++ index.repr ++ ": " ++ cause.message

end CompileError
end PL0
