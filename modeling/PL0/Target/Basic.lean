import PL0.Instruction
import PL0.Symbol
import PL0.Text.Column

/-!
Compiled programs, and their code as lines of three numbers: opcode, level and modifier.
-/

namespace PL0

def Instruction.line (i : Instruction) : List Char :=
  [' '].intercalate [Nat.toDigits 10 i.op.code, i.level.digits, i.modifier.digits]

structure TargetProgram where
  code : List Instruction
  symbols : List Symbol
  deriving DecidableEq, Repr

namespace TargetProgram

def codeText (p : TargetProgram) : String :=
  String.ofList (Text.ofLines (p.code.map Instruction.line))

end TargetProgram
end PL0
