import PL0.Json.Basic
import PL0.Target.Basic

/-!
The compiled program as a JSON document.
-/

namespace PL0

def Instruction.toJson (i : Instruction) : Json :=
  .obj
    [("op", .str i.op.mnemonic),
     ("level", .int i.level.toInt),
     ("modifier", .int i.modifier.toInt)]

def Symbol.toJson (symbol : Symbol) : Json :=
  .obj
    [("kind", .str symbol.kind.name),
     ("name", .str symbol.name),
     ("value", .int symbol.value.toInt),
     ("level", .int symbol.level.toInt),
     ("address", .int symbol.address.toInt),
     ("mark", .bool symbol.marked)]

namespace TargetProgram

def toJson (p : TargetProgram) : Json :=
  .obj
    [("code", .arr (p.code.map Instruction.toJson)),
     ("symbols", .arr (p.symbols.map Symbol.toJson))]

def dump (p : TargetProgram) : String :=
  String.ofList (p.toJson.pretty 0)

end TargetProgram
end PL0
