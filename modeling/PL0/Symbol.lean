import PL0.Error
import PL0.Word

/-!
The symbol table. Symbols are entered in the order of their declarations and stay; marking takes
them out of sight. A name can be declared while no symbol in sight has it. An entry is identified by
the number of entries before it.
-/

namespace PL0

inductive SymbolKind where
  | const | var
  deriving DecidableEq, Repr

namespace SymbolKind

def code : SymbolKind → Nat
  | const => 1
  | var => 2

def name : SymbolKind → String
  | const => "constant"
  | var => "variable"

end SymbolKind

structure Symbol where
  kind : SymbolKind
  name : String
  value : Word
  level : Word
  address : Word
  marked : Bool
  deriving DecidableEq, Repr

/-- The level of the block of a program. There are no other blocks. -/
def blockLevel : Word := 0

namespace Symbol

def const (name : String) (value : Word) : Symbol := ⟨.const, name, value, blockLevel, 0, false⟩

/-- A variable at the given place in the frame. -/
def var (name : String) (address : Word) : Symbol := ⟨.var, name, 0, blockLevel, address, false⟩

/-- Whether a use of `name` can mean this symbol. -/
def answersTo (symbol : Symbol) (name : String) : Bool :=
  ! symbol.marked && symbol.name == name

def mark (symbol : Symbol) : Symbol :=
  { symbol with marked := true }

end Symbol

structure SymbolTable where
  capacity : Nat
  /-- The entries, the newest first. -/
  newest : List Symbol
  deriving DecidableEq, Repr

namespace SymbolTable

def empty (capacity : Nat) : SymbolTable := ⟨capacity, []⟩

def size (table : SymbolTable) : Nat :=
  table.newest.length

/-- The entries in the order of their declarations. -/
def entries (table : SymbolTable) : List Symbol :=
  table.newest.reverse

def get? (table : SymbolTable) (id : Nat) : Option Symbol :=
  table.entries[id]?

/-- The symbol that `name` means. -/
def find? (table : SymbolTable) (name : String) : Option Symbol :=
  table.newest.find? (·.answersTo name)

/-- Where the symbol that `name` means is entered. -/
def lookup? (table : SymbolTable) (name : String) : Option Nat :=
  (table.newest.findIdx? (·.answersTo name)).map (table.size - 1 - ·)

/-- Enters a symbol, in sight, and gives its place. -/
def declare (table : SymbolTable) (symbol : Symbol) : Except CompileError (Nat × SymbolTable) :=
  if (table.find? symbol.name).isSome then .error (.fault .duplicateSymbol)
  else if table.capacity ≤ table.size then .error (.symbolTableFull table.capacity)
  else
    let symbol := { symbol with marked := false }
    .ok (table.size, { table with newest := symbol :: table.newest })

/-- Takes all symbols out of sight. -/
def markAll (table : SymbolTable) : SymbolTable :=
  { table with newest := table.newest.map Symbol.mark }

@[simp]
theorem entries_markAll (table : SymbolTable) :
    table.markAll.entries = table.entries.map Symbol.mark := by
  simp [markAll, entries]

@[simp]
theorem length_entries (table : SymbolTable) : table.entries.length = table.size := by
  simp [entries, size]

theorem find?_eq (table : SymbolTable) (name : String) :
    table.find? name = (table.lookup? name).bind table.get? := by
  unfold find? lookup? get? entries size
  rw [List.find?_eq_bind_findIdx?_getElem?]
  cases h : table.newest.findIdx? (·.answersTo name) with
  | none => rfl
  | some i =>
    have hi := (List.findIdx?_eq_some_iff_getElem.1 h).1
    have hback : table.newest.length - 1 - i < table.newest.length := by omega
    have hfront : table.newest.length - 1 - (table.newest.length - 1 - i) = i := by omega
    simp only [Option.bind_some, Option.map_some]
    rw [List.getElem?_reverse hback, hfront]

theorem declare_eq_ok_iff {table after : SymbolTable} {symbol : Symbol} {id : Nat} :
    table.declare symbol = .ok (id, after) ↔
      table.find? symbol.name = none ∧ table.size < table.capacity ∧ id = table.size ∧
        after = { table with newest := { symbol with marked := false } :: table.newest } := by
  unfold declare
  split
  · rename_i hfound
    simp [Option.isSome_iff_ne_none.1 hfound]
  · rename_i hfound
    rw [Option.not_isSome_iff_eq_none] at hfound
    split
    · rename_i hfull
      simp [Nat.not_lt.2 hfull]
    · rename_i hfree
      simp [hfound, Nat.lt_of_not_le hfree, eq_comm]

theorem entries_declare {table after : SymbolTable} {symbol : Symbol} {id : Nat}
    (h : table.declare symbol = .ok (id, after)) :
    after.entries = table.entries ++ [{ symbol with marked := false }] := by
  obtain ⟨_, _, _, rfl⟩ := declare_eq_ok_iff.1 h
  simp [entries]

end SymbolTable
end PL0
