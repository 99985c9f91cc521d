import PL0.Proofs.Compilation
import PL0.Proofs.Mentions
import PL0.Proofs.Records
import PL0.Proofs.Text.Lines
import PL0.Target.Listing

/-!
This module contains how a program is read back from its listing. A row of one of the tables has its
cells for fields, even where they do not fit their columns, as long as the names of the symbols are
fields: and names that come from records are.
-/

namespace PL0

namespace Opcode

def ofMnemonic? (mnemonic : String) : Option Opcode :=
  all.find? (·.mnemonic == mnemonic)

theorem ofMnemonic?_mnemonic (op : Opcode) : ofMnemonic? op.mnemonic = some op := by
  cases op <;> rfl

theorem isField_mnemonic (op : Opcode) : Text.IsField op.mnemonic.toList := by
  cases op <;> decide

end Opcode

namespace SymbolKind

def ofCode? (code : Int) : Option SymbolKind :=
  [const, var].find? fun kind => (kind.code : Int) == code

theorem ofCode?_code (kind : SymbolKind) : ofCode? kind.code = some kind := by
  cases kind <;> rfl

end SymbolKind

namespace Listing

def bar : List Char := ['|']

def flagDigit (flag : Bool) : List Char :=
  [if flag then '1' else '0']

/-- What the row of an instruction shows. -/
def codeCells (index : Nat) (i : Instruction) : List (List Char) :=
  [Nat.toDigits 10 index, i.op.mnemonic.toList, i.level.digits, i.modifier.digits]

/-- What the row of a symbol shows. -/
def symbolCells (symbol : Symbol) : List (List Char) :=
  [Nat.toDigits 10 symbol.kind.code, symbol.name.toList, symbol.value.digits,
    symbol.level.digits, symbol.address.digits, flagDigit symbol.marked]

/-- The instruction in a row of the code table. -/
def instruction? (line : List Char) : Option Instruction :=
  match Text.fields line with
  | [_, op, level, modifier] => do
    let op ← Opcode.ofMnemonic? (String.ofList op)
    let level ← Word.ofDigits? level
    let modifier ← Word.ofDigits? modifier
    return ⟨op, level, modifier⟩
  | _ => none

def flag? : List Char → Option Bool
  | ['0'] => some false
  | ['1'] => some true
  | _ => none

/-- The symbol in a row of the symbol table. -/
def symbol? (line : List Char) : Option Symbol :=
  match Text.fields line with
  | [kind, _, name, _, value, _, level, _, address, _, mark] => do
    let kind ← (Decimal.int? kind).bind SymbolKind.ofCode?
    let value ← Word.ofDigits? value
    let level ← Word.ofDigits? level
    let address ← Word.ofDigits? address
    let marked ← flag? mark
    return ⟨kind, String.ofList name, value, level, address, marked⟩
  | _ => none

theorem isField_flagDigit (flag : Bool) : Text.IsField (flagDigit flag) := by
  cases flag <;> decide

theorem flag?_flagDigit (flag : Bool) : flag? (flagDigit flag) = some flag := by
  cases flag <;> rfl

theorem isField_codeCells (index : Nat) (i : Instruction) :
    ∀ cell ∈ codeCells index i, Text.IsField cell := by
  simp only [codeCells, List.forall_mem_cons]
  refine ⟨?_, ?_, ?_, ?_, List.forall_mem_nil _⟩
  · exact Decimal.isField_toDigits index
  · exact i.op.isField_mnemonic
  · exact i.level.isField_digits
  · exact i.modifier.isField_digits

theorem isField_symbolCells {symbol : Symbol} (hname : Text.IsField symbol.name.toList) :
    ∀ cell ∈ symbolCells symbol, Text.IsField cell := by
  simp only [symbolCells, List.forall_mem_cons]
  refine ⟨?_, hname, ?_, ?_, ?_, ?_, List.forall_mem_nil _⟩
  · exact Decimal.isField_toDigits symbol.kind.code
  · exact symbol.value.isField_digits
  · exact symbol.level.isField_digits
  · exact symbol.address.isField_digits
  · exact isField_flagDigit symbol.marked

theorem fields_ofInstruction (index : Nat) (i : Instruction) :
    Text.fields (ofInstruction index i) = codeCells index i := by
  apply (Text.divides_singleton (by decide)).fields_row
  simpa [codeCells] using isField_codeCells index i

theorem newline_notMem_ofInstruction (index : Nat) (i : Instruction) :
    '\n' ∉ ofInstruction index i := by
  apply Text.newline_notMem_row (by decide)
  simpa [codeCells] using isField_codeCells index i

theorem fields_ofSymbol {symbol : Symbol} (hname : Text.IsField symbol.name.toList) :
    Text.fields (ofSymbol symbol) = (symbolCells symbol).intersperse bar := by
  apply (Text.divides_between (by decide) (by decide) bar).fields_row
  simpa [symbolCells, flagDigit] using isField_symbolCells hname

theorem newline_notMem_ofSymbol {symbol : Symbol} (hname : Text.IsField symbol.name.toList) :
    '\n' ∉ ofSymbol symbol := by
  apply Text.newline_notMem_row (by decide)
  simpa [symbolCells, flagDigit] using isField_symbolCells hname

theorem instruction?_ofInstruction (index : Nat) (i : Instruction) :
    instruction? (ofInstruction index i) = some i := by
  simp [instruction?, fields_ofInstruction, codeCells, Opcode.ofMnemonic?_mnemonic]

theorem symbol?_ofSymbol {symbol : Symbol} (hname : Text.IsField symbol.name.toList) :
    symbol? (ofSymbol symbol) = some symbol := by
  have hkind : (Decimal.int? (Nat.toDigits 10 symbol.kind.code)).bind SymbolKind.ofCode? =
      some symbol.kind := by
    rw [Decimal.int?_toDigits, Option.bind_some]
    exact symbol.kind.ofCode?_code
  simp [symbol?, fields_ofSymbol hname, symbolCells, hkind, flag?_flagDigit]

end Listing

namespace TargetProgram

/-- The names of the symbols are fields. -/
def IsNamed (p : TargetProgram) : Prop :=
  ∀ symbol ∈ p.symbols, Text.IsField symbol.name.toList

/-- The program that a text lists. The code table ends where a line is empty. -/
def ofListing? (text : String) : Option TargetProgram := do
  let lines := Text.lines text.toList
  let rows := (lines.drop 2).takeWhile (! ·.isEmpty)
  let code ← rows.mapM Listing.instruction?
  let symbols ← (lines.drop (rows.length + 6)).mapM Listing.symbol?
  return ⟨code, symbols⟩

variable {p : TargetProgram}

theorem isNamed_of_records {text : String} {tokens : List Token} {limits : Limits}
    (hrecords : Token.ofRecords text = .ok tokens)
    (hcompile : (compile tokens limits).result = .ok p) : p.IsNamed := by
  obtain ⟨_, _, program, hspelled, _, _, rfl⟩ := compile_eq_ok_iff_program.1 hcompile
  obtain ⟨hcanonical, _⟩ := Token.ofRecords_eq_ok_iff.1 hrecords
  intro symbol hsymbol
  have hname : symbol.name ∈ Token.names (Token.throughPeriod tokens) := by
    rw [← Program.map_name_mentions hspelled, Program.mentions, List.map_append, List.map_map]
    apply List.mem_append_left
    have hdeclared : symbol.name ∈ program.declarations.names := by
      rw [← program.declarations.map_name_symbols true]
      exact List.mem_map_of_mem hsymbol
    simpa [Function.comp_def] using hdeclared
  obtain ⟨token, htoken, hlexeme⟩ := List.mem_map.1 hname
  obtain ⟨htoken, hident⟩ := List.mem_filter.1 htoken
  have hmem := (Token.throughPeriod_isPrefix tokens).subset htoken
  rw [← hlexeme]
  exact (hcanonical token hmem).name (eq_of_beq hident)

theorem lines_listing (h : p.IsNamed) : Text.lines p.listing.toList = p.listingLines := by
  rw [listing, String.toList_ofList]
  apply Text.lines_ofLines
  simp only [listingLines, List.forall_mem_append, List.forall_mem_cons, List.forall_mem_map]
  refine ⟨⟨by decide, by decide, ?_⟩, by decide, by decide, by decide, by decide, ?_⟩
  · intro entry _
    exact Listing.newline_notMem_ofInstruction entry.2 entry.1
  · intro symbol hsymbol
    exact Listing.newline_notMem_ofSymbol (h symbol hsymbol)

def codeRows (p : TargetProgram) : List (List Char) :=
  p.code.zipIdx.map fun entry => Listing.ofInstruction entry.2 entry.1

theorem length_codeRows (p : TargetProgram) : p.codeRows.length = p.code.length := by
  rw [codeRows, List.length_map, List.length_zipIdx]

/-- What stands between the two tables: the end of the one and the head of the other. -/
def middleLines : List (List Char) :=
  [[], "Symbol Table:".toList, Listing.symbolHead, Listing.rule]

theorem listingLines_eq (p : TargetProgram) :
    p.listingLines = ["Assembly Code:".toList, Listing.codeHead] ++
      (p.codeRows ++ (middleLines ++ p.symbols.map Listing.ofSymbol)) := rfl

theorem length_listingLines (p : TargetProgram) :
    p.listingLines.length = p.code.length + p.symbols.length + 6 := by
  simp only [listingLines_eq, middleLines, List.length_append, List.length_cons, List.length_nil,
    List.length_map, length_codeRows]
  omega

theorem drop_two_listingLines (p : TargetProgram) :
    p.listingLines.drop 2 = p.codeRows ++ (middleLines ++ p.symbols.map Listing.ofSymbol) := rfl

theorem drop_add_listingLines (p : TargetProgram) :
    p.listingLines.drop (p.code.length + 6) = p.symbols.map Listing.ofSymbol := by
  have hdrop : p.code.length + 6 = 2 + (p.codeRows.length + middleLines.length) := by
    rw [length_codeRows, middleLines]
    simp only [List.length_cons, List.length_nil]
    omega
  rw [hdrop, ← List.drop_drop, drop_two_listingLines, ← List.append_assoc,
    List.drop_left' List.length_append]

theorem getElem?_listingLines_code (p : TargetProgram) {i : Nat} {instruction : Instruction}
    (hi : p.code[i]? = some instruction) :
    p.listingLines[2 + i]? = some (Listing.ofInstruction i instruction) := by
  have hlt : i < p.codeRows.length := by
    rw [length_codeRows]
    exact (List.getElem?_eq_some_iff.1 hi).1
  rw [← List.getElem?_drop, drop_two_listingLines, List.getElem?_append_left hlt, codeRows]
  simp [hi]

theorem getElem?_listingLines_symbols (p : TargetProgram) {i : Nat} {symbol : Symbol}
    (hi : p.symbols[i]? = some symbol) :
    p.listingLines[p.code.length + 6 + i]? = some (Listing.ofSymbol symbol) := by
  rw [← List.getElem?_drop, drop_add_listingLines, List.getElem?_map, hi, Option.map_some]

theorem takeWhile_listingLines (p : TargetProgram) :
    (p.listingLines.drop 2).takeWhile (! ·.isEmpty) = p.codeRows := by
  -- No row is empty, so that the code table ends with the first line that is.
  rw [drop_two_listingLines, List.takeWhile_append_of_pos]
  · exact List.append_nil _
  · rw [codeRows, List.forall_mem_map]
    intro entry _
    have hfields := Listing.fields_ofInstruction entry.2 entry.1
    cases hrow : Listing.ofInstruction entry.2 entry.1 with
    | nil =>
      rw [hrow] at hfields
      cases hfields
    | cons => rfl

theorem mapM_codeRows (p : TargetProgram) :
    p.codeRows.mapM Listing.instruction? = some p.code := by
  have hrows : p.codeRows.mapM Listing.instruction? = some (p.code.zipIdx.map Prod.fst) := by
    apply List.mapM_map_eq_some
    intro entry _
    exact Listing.instruction?_ofInstruction entry.2 entry.1
  rw [hrows, List.zipIdx_map_fst]

theorem ofListing?_listing (h : p.IsNamed) : ofListing? p.listing = some p := by
  have hsymbols : (p.symbols.map Listing.ofSymbol).mapM Listing.symbol? =
      some (p.symbols.map id) := by
    apply List.mapM_map_eq_some
    intro symbol hsymbol
    exact Listing.symbol?_ofSymbol (h symbol hsymbol)
  simp only [ofListing?, lines_listing h, takeWhile_listingLines, length_codeRows,
    drop_add_listingLines, mapM_codeRows, hsymbols, List.map_id, Option.bind_eq_bind,
    Option.bind_some, Option.pure_def]

/--
The names of a program that was compiled from records are fields. If the names are fields, then the
listing has a line for each instruction and for each symbol and six more, the fields of these lines
are what is to be shown, and the program can be told from the listing.
-/
theorem listing_faithful (p : TargetProgram) :
    (∀ text tokens limits, Token.ofRecords text = .ok tokens →
      (compile tokens limits).result = .ok p → p.IsNamed) ∧
    (p.IsNamed →
      (Text.lines p.listing.toList).length = p.code.length + p.symbols.length + 6 ∧
      (∀ i instruction, p.code[i]? = some instruction →
        (Text.lines p.listing.toList)[2 + i]?.map Text.fields =
          some [Nat.toDigits 10 i, instruction.op.mnemonic.toList, instruction.level.digits,
            instruction.modifier.digits]) ∧
      (∀ i symbol, p.symbols[i]? = some symbol →
        (Text.lines p.listing.toList)[p.code.length + 6 + i]?.map Text.fields =
          some [Nat.toDigits 10 symbol.kind.code, ['|'], symbol.name.toList, ['|'],
            symbol.value.digits, ['|'], symbol.level.digits, ['|'], symbol.address.digits, ['|'],
            [if symbol.marked then '1' else '0']]) ∧
      ofListing? p.listing = some p) := by
  refine ⟨fun text tokens limits => isNamed_of_records, ?_⟩
  intro hnamed
  rw [lines_listing hnamed]
  refine ⟨p.length_listingLines, ?_, ?_, ofListing?_listing hnamed⟩
  · intro i instruction hi
    rw [p.getElem?_listingLines_code hi, Option.map_some, Listing.fields_ofInstruction]
    rfl
  · intro i symbol hi
    have hname := hnamed symbol (List.mem_of_getElem? hi)
    rw [p.getElem?_listingLines_symbols hi, Option.map_some, Listing.fields_ofSymbol hname]
    rfl

/-- `const a|wide|name = -2147483648; write a|wide|name.` -/
def wideCells : TargetProgram :=
  ⟨[⟨.jmp, 0, 3⟩, ⟨.inc, 0, 3⟩, ⟨.lit, 0, -2147483648⟩, ⟨.sys, 0, 1⟩, ⟨.sys, 0, 3⟩],
    [⟨.const, "a|wide|name", -2147483648, 0, 0, true⟩]⟩

theorem listing_faithful_wideCells :
    wideCells.IsNamed ∧
      (Text.lines wideCells.listing.toList).length = 12 ∧
      (Text.lines wideCells.listing.toList)[4]?.map Text.fields =
        some ["2".toList, "LIT".toList, "0".toList, "-2147483648".toList] ∧
      (Text.lines wideCells.listing.toList)[11]?.map Text.fields =
        some ["1".toList, "|".toList, "a|wide|name".toList, "|".toList, "-2147483648".toList,
          "|".toList, "0".toList, "|".toList, "0".toList, "|".toList, "1".toList] ∧
      ofListing? wideCells.listing = some wideCells := by
  obtain ⟨hrecords, hlisting⟩ := wideCells.listing_faithful
  have hnamed := hrecords "28 2 a|wide|name 8 3 -2147483648 17 31 2 a|wide|name 18"
    [.plain .constSym, .ident "a|wide|name", .plain .eql, .number (-2147483648),
      .plain .semicolon, .plain .writeSym, .ident "a|wide|name", .plain .period]
    {} rfl (by decide +kernel)
  obtain ⟨hlength, hcode, hsymbols, hread⟩ := hlisting hnamed
  exact ⟨hnamed, hlength, hcode 2 _ rfl, hsymbols 0 _ rfl, hread⟩

end TargetProgram
end PL0
