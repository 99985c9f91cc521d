import PL0.Target.Basic

/-!
The compiled program as two tables: its code, then its symbols.
-/

namespace PL0

namespace Listing

/-- A row of the code table: line, opcode, level, modifier. -/
def codeRow (line op level modifier : List Char) : List Char :=
  Text.row [' '] [(4, line), (4, op), (4, level), (4, modifier)]

/-- A row of the symbol table. -/
def symbolRow (kind name value level address mark : List Char) : List Char :=
  Text.row [' ', '|', ' ']
    [(4, kind), (11, name), (5, value), (5, level), (7, address), (4, mark)]

def codeHead : List Char :=
  codeRow "Line".toList "OP".toList "L".toList "M".toList

def symbolHead : List Char :=
  symbolRow "Kind".toList "Name".toList "Value".toList "Level".toList "Address".toList "Mark".toList

def rule : List Char :=
  List.replicate 51 '-'

def ofInstruction (index : Nat) (i : Instruction) : List Char :=
  codeRow (Nat.toDigits 10 index) i.op.mnemonic.toList i.level.digits i.modifier.digits

def ofSymbol (symbol : Symbol) : List Char :=
  symbolRow (Nat.toDigits 10 symbol.kind.code) symbol.name.toList symbol.value.digits
    symbol.level.digits symbol.address.digits [if symbol.marked then '1' else '0']

end Listing

namespace TargetProgram

def listingLines (p : TargetProgram) : List (List Char) :=
  "Assembly Code:".toList :: Listing.codeHead
    :: p.code.zipIdx.map (fun entry => Listing.ofInstruction entry.2 entry.1)
    ++ [] :: "Symbol Table:".toList :: Listing.symbolHead :: Listing.rule
    :: p.symbols.map Listing.ofSymbol

def listing (p : TargetProgram) : String :=
  String.ofList (Text.ofLines p.listingLines)

end TargetProgram
end PL0
