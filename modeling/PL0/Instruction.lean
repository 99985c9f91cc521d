import PL0.Word

/-!
Instructions of the PM/0 machine. An instruction has an opcode, a level and a modifier. Code is laid
out in words, three for each instruction, and branches name their target by its word address.
-/

namespace PL0

inductive Opcode where
  | lit | opr | lod | sto | cal | inc | jmp | jpc | sys
  deriving DecidableEq, Repr

namespace Opcode

/-- The opcodes in the order of their codes. -/
def all : List Opcode := [lit, opr, lod, sto, cal, inc, jmp, jpc, sys]

def code : Opcode → Nat
  | lit => 1
  | opr => 2
  | lod => 3
  | sto => 4
  | cal => 5
  | inc => 6
  | jmp => 7
  | jpc => 8
  | sys => 9

def ofCode? (code : Int) : Option Opcode :=
  all.find? fun op => (op.code : Int) == code

def mnemonic : Opcode → String
  | lit => "LIT"
  | opr => "OPR"
  | lod => "LOD"
  | sto => "STO"
  | cal => "CAL"
  | inc => "INC"
  | jmp => "JMP"
  | jpc => "JPC"
  | sys => "SYS"

/-- The opcodes whose modifier is a code address. -/
def isBranch : Opcode → Bool
  | jmp | jpc => true
  | _ => false

theorem ofCode?_code (op : Opcode) : ofCode? op.code = some op := by
  cases op <;> rfl

end Opcode

/-- What `OPR` computes, selected by its modifier. -/
inductive Operation where
  | add | sub | mul | div | eql | neq | lss | leq | gtr | geq | even
  deriving DecidableEq, Repr

namespace Operation

def all : List Operation := [add, sub, mul, div, eql, neq, lss, leq, gtr, geq, even]

def code : Operation → Word
  | add => 1
  | sub => 2
  | mul => 3
  | div => 4
  | eql => 5
  | neq => 6
  | lss => 7
  | leq => 8
  | gtr => 9
  | geq => 10
  | even => 11

end Operation

/-- What `SYS` asks for, selected by its modifier. -/
inductive SystemCall where
  | write | read | halt
  deriving DecidableEq, Repr

namespace SystemCall

def all : List SystemCall := [write, read, halt]

def code : SystemCall → Word
  | write => 1
  | read => 2
  | halt => 3

end SystemCall

/-- Where a variable is: so many levels down, at the given address of the frame there. -/
structure Location where
  levels : Word
  address : Word
  deriving DecidableEq, Repr

structure Instruction where
  op : Opcode
  level : Word
  modifier : Word
  deriving DecidableEq, Repr

namespace Instruction

/-- The words that one instruction occupies. -/
def width : Nat := 3

/-- The word address of the instruction with the given index, as far as a word can hold it. -/
def wordAddress (index : Nat) : Word :=
  Int32.ofNat (index * width)

def literal (value : Word) : Instruction := ⟨.lit, 0, value⟩

def operate (operation : Operation) : Instruction := ⟨.opr, 0, operation.code⟩

def load (location : Location) : Instruction := ⟨.lod, location.levels, location.address⟩

def store (location : Location) : Instruction := ⟨.sto, location.levels, location.address⟩

/-- Takes `size` more words of the stack. -/
def reserve (size : Word) : Instruction := ⟨.inc, 0, size⟩

def jump (target : Word) : Instruction := ⟨.jmp, 0, target⟩

/-- A conditional branch whose target is not known yet. -/
def hole : Instruction := ⟨.jpc, 0, 0⟩

def system (call : SystemCall) : Instruction := ⟨.sys, 0, call.code⟩

theorem toInt_wordAddress {index : Nat} (h : index * width < UInt32.size / 2) :
    (wordAddress index).toInt = index * width :=
  Int32.toInt_ofNat_of_lt h

end Instruction
end PL0
