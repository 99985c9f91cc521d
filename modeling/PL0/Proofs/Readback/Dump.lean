import PL0.Proofs.Json.Indented
import PL0.Proofs.Readback.Listing
import PL0.Target.Dump

/-!
This module contains how a program is read back from its dump. The dump is a JSON text, so that a
reader of such texts gets at the fields of the instructions and of the symbols by their keys.
-/

namespace PL0

namespace Json.Document

section

variable {α : Type}

/-- What is read from the value of a member. -/
def member? (document : Document) (key : String) (read : Document → Option α) : Option α :=
  match document with
  | obj members => (members.lookup key).bind read
  | _ => none

/-- What is read from the items of an array. -/
def items? (read : Document → Option α) : Document → Option (List α)
  | arr items => items.mapM read
  | _ => none

theorem items?_map {write : α → Json} {read : Document → Option α}
    (h : ∀ item, read (write item).document = some item) (items : List α) :
    (Json.arr (items.map write)).document.items? read = some items := by
  have hread : ((items.map write).map Json.document).mapM read = some (items.map id) := by
    rw [List.map_map]
    apply List.mapM_map_eq_some
    intro item _
    exact h item
  rw [document_arr, items?, hread, List.map_id]

end

def str? : Document → Option String
  | str value => some value
  | _ => none

def bool? : Document → Option Bool
  | bool value => some value
  | _ => none

def word? : Document → Option Word
  | number value => value.int?.bind Word.ofInt?
  | _ => none

theorem word?_ofInt (w : Word) : (number (.ofInt w.toInt)).word? = some w := by
  rw [word?, Numeral.int?_ofInt, Option.bind_some, Word.ofInt?_toInt]

end Json.Document

open Json (Document)

namespace Opcode

def ofDocument? (document : Document) : Option Opcode :=
  document.str?.bind ofMnemonic?

theorem ofDocument?_mnemonic (op : Opcode) : ofDocument? (.str op.mnemonic) = some op :=
  op.ofMnemonic?_mnemonic

end Opcode

namespace SymbolKind

def ofDocument? (document : Document) : Option SymbolKind :=
  document.str?.bind fun name => [const, var].find? (·.name == name)

theorem ofDocument?_name (kind : SymbolKind) : ofDocument? (.str kind.name) = some kind := by
  cases kind <;> rfl

end SymbolKind

namespace Instruction

def ofDocument? (document : Document) : Option Instruction := do
  let op ← document.member? "op" Opcode.ofDocument?
  let level ← document.member? "level" Document.word?
  let modifier ← document.member? "modifier" Document.word?
  return ⟨op, level, modifier⟩

theorem ofDocument?_toJson (i : Instruction) : ofDocument? i.toJson.document = some i := by
  simp [ofDocument?, toJson, Json.document_obj, Json.document, Document.member?,
    List.lookup_cons, Opcode.ofDocument?_mnemonic, Document.word?_ofInt]

end Instruction

namespace Symbol

def ofDocument? (document : Document) : Option Symbol := do
  let kind ← document.member? "kind" SymbolKind.ofDocument?
  let name ← document.member? "name" Document.str?
  let value ← document.member? "value" Document.word?
  let level ← document.member? "level" Document.word?
  let address ← document.member? "address" Document.word?
  let marked ← document.member? "mark" Document.bool?
  return ⟨kind, name, value, level, address, marked⟩

theorem ofDocument?_toJson (symbol : Symbol) :
    ofDocument? symbol.toJson.document = some symbol := by
  simp [ofDocument?, toJson, Json.document_obj, Json.document, Document.member?,
    List.lookup_cons, SymbolKind.ofDocument?_name, Document.str?, Document.bool?,
    Document.word?_ofInt]

end Symbol

namespace TargetProgram

def ofDocument? (document : Document) : Option TargetProgram := do
  let code ← document.member? "code" (Document.items? Instruction.ofDocument?)
  let symbols ← document.member? "symbols" (Document.items? Symbol.ofDocument?)
  return ⟨code, symbols⟩

/-- The program that a JSON text holds. -/
def ofDump? (text : String) : Option TargetProgram :=
  (Json.read text.toList).toOption.bind ofDocument?

theorem ofDocument?_toJson (p : TargetProgram) : ofDocument? p.toJson.document = some p := by
  have hcode := Document.items?_map Instruction.ofDocument?_toJson p.code
  have hsymbols := Document.items?_map Symbol.ofDocument?_toJson p.symbols
  simp [ofDocument?, toJson, Json.document_obj, Document.member?, List.lookup_cons, hcode, hsymbols]

theorem isTextOf_dump (p : TargetProgram) : p.toJson.document.IsTextOf p.dump.toList := by
  rw [dump, String.toList_ofList]
  exact p.toJson.isTextOf_pretty

theorem ofDump?_dump (p : TargetProgram) : ofDump? p.dump = some p := by
  rw [ofDump?, Document.read_of_isTextOf p.isTextOf_dump]
  exact p.ofDocument?_toJson

/--
The dump of a program is a JSON text, and whatever it is taken to be a text of holds the program. So
the program can be read from its dump, which no other program has.
-/
theorem dump_readable (p : TargetProgram) :
    p.toJson.document.IsTextOf p.dump.toList ∧
      (∀ document : Document, document.IsTextOf p.dump.toList → ofDocument? document = some p) ∧
        ofDump? p.dump = some p ∧ ∀ q : TargetProgram, q.dump = p.dump → q = p := by
  refine ⟨p.isTextOf_dump, ?_, p.ofDump?_dump, ?_⟩
  · intro document hdocument
    have hread := Document.read_of_isTextOf hdocument
    rw [Document.read_of_isTextOf p.isTextOf_dump] at hread
    cases hread
    exact p.ofDocument?_toJson
  · intro q hsame
    exact Text.eq_of_read_write ofDump?_dump hsame

/-- The name of the variable has characters of all kinds that are written in their own way. -/
def oddlyNamed : TargetProgram :=
  ⟨[⟨.lit, 0, -2147483648⟩], [⟨.var, "\"\\\n\x01\x7f/é😀", 2147483647, -1, 3, true⟩]⟩

theorem dump_readable_oddlyNamed :
    oddlyNamed.dump =
        "\x7b\n  \"code\": [\n    \x7b\n      \"op\": \"LIT\",\n      \"level\": 0,\n" ++
          "      \"modifier\": -2147483648\n    \x7d\n  ],\n  \"symbols\": [\n    \x7b\n" ++
          "      \"kind\": \"variable\",\n      \"name\": \"\\\"\\\\\\n\\u0001\x7f/é😀\",\n" ++
          "      \"value\": 2147483647,\n      \"level\": -1,\n      \"address\": 3,\n" ++
          "      \"mark\": true\n    \x7d\n  ]\n\x7d" ∧
      (∀ document : Document, document.IsTextOf oddlyNamed.dump.toList →
        ofDocument? document = some oddlyNamed) ∧
      ofDocument? oddlyNamed.toJson.document = some oddlyNamed ∧
      ofDump? oddlyNamed.dump = some oddlyNamed := by
  obtain ⟨htext, hdocument, hdump, _⟩ := oddlyNamed.dump_readable
  exact ⟨by decide +kernel, hdocument, hdocument _ htext, hdump⟩

end TargetProgram
end PL0
