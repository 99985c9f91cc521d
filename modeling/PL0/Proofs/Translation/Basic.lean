import PL0.Proofs.Agenda
import PL0.Proofs.Layout

/-!
This module contains what it means that a piece of a program has been translated: its tokens are
read, its symbols are declared and its code stands behind the code that was there, with the targets
of all its branches set. Nothing that was there before is changed. Pieces that are translated one
after the other make up one piece.
-/

namespace PL0

open Except (map_eq_ok_iff)

/-- An instruction of a finished piece of code: its target is set if it is a conditional branch. -/
def Cell.settled (instruction : Instruction) : Cell :=
  ⟨instruction, instruction.op == .jpc⟩

namespace Code

theorem nextAddress_eq (code : Code) : code.nextAddress = Int32.ofNat (3 * code.size) := by
  rw [nextAddress, Instruction.wordAddress, Instruction.width, Nat.mul_comm]

def extend (code : Code) (more : List Instruction) : Code :=
  { code with cells := code.cells ++ (more.map Cell.settled).toArray }

@[simp]
theorem extend_nil (code : Code) : code.extend [] = code := by
  simp [extend]

theorem extend_extend (code : Code) (more rest : List Instruction) :
    (code.extend more).extend rest = code.extend (more ++ rest) := by
  simp [extend]

@[simp]
theorem size_extend (code : Code) (more : List Instruction) :
    (code.extend more).size = code.size + more.length := by
  simp [extend, size]

@[simp]
theorem capacity_extend (code : Code) (more : List Instruction) :
    (code.extend more).capacity = code.capacity := rfl

theorem instructions_extend (code : Code) (more : List Instruction) :
    (code.extend more).instructions = code.instructions ++ more := by
  simp [extend, instructions, Cell.settled, Function.comp_def]

theorem emit_eq_ok_iff_extend {code after : Code} {instruction : Instruction} {index : Nat}
    (hop : instruction.op ≠ .jpc) :
    code.emit instruction = .ok (index, after) ↔
      code.size < code.capacity ∧ index = code.size ∧ after = code.extend [instruction] := by
  have hcell : (⟨instruction, false⟩ : Cell) = .settled instruction := by
    simp [Cell.settled, hop]
  rw [emit_eq_ok_iff, hcell]
  simp [extend]

/-- The code with a branch whose target is not known yet, and a finished piece behind it. -/
def extendOpen (code : Code) (more : List Instruction) : Code :=
  { code with cells := code.cells.push ⟨.hole, false⟩ ++ (more.map Cell.settled).toArray }

theorem emit_hole_eq_ok_iff {code after : Code} {index : Nat} :
    code.emit .hole = .ok (index, after) ↔
      code.size < code.capacity ∧ index = code.size ∧ after = code.extendOpen [] := by
  rw [emit_eq_ok_iff]
  simp [extendOpen]

theorem extend_extendOpen (code : Code) (more rest : List Instruction) :
    (code.extendOpen more).extend rest = code.extendOpen (more ++ rest) := by
  simp [extendOpen, extend]

@[simp]
theorem size_extendOpen (code : Code) (more : List Instruction) :
    (code.extendOpen more).size = code.size + 1 + more.length := by
  simp only [extendOpen, size, Array.size_append, Array.size_push, List.size_toArray,
    List.length_map]

theorem nextAddress_extendOpen (code : Code) (more : List Instruction) :
    (code.extendOpen more).nextAddress = Int32.ofNat (3 * (code.size + 1 + more.length)) := by
  rw [nextAddress_eq, size_extendOpen]

@[simp]
theorem capacity_extendOpen (code : Code) (more : List Instruction) :
    (code.extendOpen more).capacity = code.capacity := rfl

theorem patch_extendOpen (code : Code) (more : List Instruction) (target : Word) :
    (code.extendOpen more).patch code.size target =
      .ok (.branch target, code.extend (.branch target :: more)) := by
  rw [patch_eq_ok_iff]
  refine ⟨⟨.hole, false⟩, ?_, rfl, rfl, rfl, ?_⟩
  · simp [extendOpen, size]
  · simp only [extend, extendOpen, size, mk.injEq, true_and]
    rw [← Array.toList_inj]
    simp [Cell.settled, Instruction.branch]

end Code

namespace Session

@[simp]
theorem symbols_advance (s : Session) : s.advance.symbols = s.symbols := rfl

@[simp]
theorem code_advance (s : Session) : s.advance.code = s.code := rfl

theorem emit_hole_eq_ok_iff {s t : Session} :
    s.emit .hole = .ok t ↔
      s.code.size < s.code.capacity ∧ t = { s with code := s.code.extendOpen [] } := by
  rw [emit, map_eq_ok_iff]
  constructor
  · rintro ⟨⟨index, after⟩, hemit, rfl⟩
    obtain ⟨hcapacity, _, rfl⟩ := Code.emit_hole_eq_ok_iff.1 hemit
    exact ⟨hcapacity, rfl⟩
  · rintro ⟨hcapacity, rfl⟩
    exact ⟨_, Code.emit_hole_eq_ok_iff.2 ⟨hcapacity, rfl, rfl⟩, rfl⟩

theorem patch_eq {s : Session} {code : Code} {more : List Instruction}
    (h : s.code = code.extendOpen more) :
    s.patch code.size =
      .ok { s with
        code := code.extend (.branch s.code.nextAddress :: more)
        log := .patched code.size .jpc s.code.nextAddress :: s.log } := by
  rw [patch, map_eq_ok_iff]
  refine ⟨(.branch s.code.nextAddress, code.extend (.branch s.code.nextAddress :: more)), ?_, rfl⟩
  rw [← Code.patch_extendOpen, h]

end Session

/-- The symbols are declared one after the other. -/
def Declared : List Symbol → SymbolTable → SymbolTable → Prop
  | [], table, after => after = table
  | symbol :: rest, table, after =>
    ∃ id next, table.declare symbol = .ok (id, next) ∧ Declared rest next after

theorem declared_append_iff {symbols rest : List Symbol} {table after : SymbolTable} :
    Declared (symbols ++ rest) table after ↔
      ∃ middle, Declared symbols table middle ∧ Declared rest middle after := by
  induction symbols generalizing table with
  | nil => simp [Declared]
  | cons symbol symbols ih =>
    simp only [List.cons_append, Declared, ih]
    constructor
    · rintro ⟨id, next, hsymbol, middle, hsymbols, hrest⟩
      exact ⟨middle, ⟨id, next, hsymbol, hsymbols⟩, hrest⟩
    · rintro ⟨middle, ⟨id, next, hsymbol, hsymbols⟩, hrest⟩
      exact ⟨id, next, hsymbol, middle, hsymbols, hrest⟩

theorem SymbolTable.find?_eq_none_iff_notMem {table : SymbolTable}
    (h : ∀ symbol ∈ table.entries, symbol.marked = false) {name : String} :
    table.find? name = none ↔ name ∉ table.entries.map (·.name) := by
  simp only [find?, List.find?_eq_none, Symbol.answersTo_iff, entries, List.mem_reverse,
    List.mem_map, not_exists, not_and] at h ⊢
  constructor
  · intro hnone symbol hmem
    exact hnone symbol hmem (h symbol hmem)
  · intro hnone symbol hmem _
    exact hnone symbol hmem

theorem declared_iff {symbols : List Symbol} {table after : SymbolTable}
    (hsymbols : ∀ symbol ∈ symbols, symbol.marked = false)
    (htable : ∀ symbol ∈ table.entries, symbol.marked = false)
    (hnodup : (table.entries.map (·.name)).Nodup) (hsize : table.size ≤ table.capacity) :
    Declared symbols table after ↔
      ((table.entries ++ symbols).map (·.name)).Nodup ∧
        table.size + symbols.length ≤ table.capacity ∧
          after = { table with newest := symbols.reverse ++ table.newest } := by
  induction symbols generalizing table with
  | nil => simp [Declared, hnodup, hsize]
  | cons symbol rest ih =>
    simp only [List.mem_cons, forall_eq_or_imp] at hsymbols
    have hsymbol : { symbol with marked := false } = symbol := by rw [← hsymbols.1]
    simp only [Declared, SymbolTable.declare_eq_ok_iff, hsymbol,
      SymbolTable.find?_eq_none_iff_notMem htable]
    generalize hnext : { table with newest := symbol :: table.newest } = next
    have hentries : next.entries = table.entries ++ [symbol] := by
      simp [← hnext, SymbolTable.entries]
    have hnextSize : next.size = table.size + 1 := by simp [← hnext, SymbolTable.size]
    have hcapacity : next.capacity = table.capacity := by rw [← hnext]
    have hafter : { next with newest := rest.reverse ++ next.newest } =
        { table with newest := (symbol :: rest).reverse ++ table.newest } := by
      simp [← hnext]
    have hnames : (next.entries.map (·.name)).Nodup ↔
        symbol.name ∉ table.entries.map (·.name) := by
      rw [hentries, List.map_append, List.map_singleton, List.nodup_append_comm,
        List.singleton_append, List.nodup_cons]
      exact and_iff_left hnodup
    have hmarked : ∀ other ∈ next.entries, other.marked = false := by
      rw [hentries]
      simpa [or_imp, forall_and, hsymbols.1] using htable
    constructor
    · rintro ⟨id, _, ⟨hfresh, hroom, _, rfl⟩, hrest⟩
      rw [ih hsymbols.2 hmarked (hnames.2 hfresh) (by omega), hafter, hentries,
        List.append_assoc, hnextSize, hcapacity] at hrest
      refine ⟨hrest.1, ?_, hrest.2.2⟩
      rw [List.length_cons]
      omega
    · rintro ⟨hall, hroom, rfl⟩
      rw [List.length_cons] at hroom
      have hfresh : (next.entries.map (·.name)).Nodup := by
        rw [hentries]
        rw [← List.singleton_append, ← List.append_assoc, List.map_append] at hall
        exact (List.nodup_append.1 hall).1
      refine ⟨table.size, next, ⟨hnames.1 hfresh, by omega, rfl, rfl⟩, ?_⟩
      rw [ih hsymbols.2 hmarked hfresh (by omega), hafter, hentries, List.append_assoc,
        hnextSize, hcapacity]
      exact ⟨hall, by omega, rfl⟩

/--
Reading the tokens leads from one session to another, declares the symbols and emits the code.
-/
structure Translates (spelling : List Token) (symbols : List Symbol) (code : List Instruction)
    (s t : Session) : Prop where
  spelling : s.cursor.rest.map Token.bare = spelling ++ t.cursor.rest.map Token.bare
  symbols : Declared symbols s.symbols t.symbols
  code : t.code = s.code.extend code

namespace Translates

theorem refl (s : Session) : Translates [] [] [] s s := by
  constructor <;> simp [Declared]

theorem trans {spelling spelling' : List Token} {symbols symbols' : List Symbol}
    {code code' : List Instruction} {s u t : Session} (h : Translates spelling symbols code s u)
    (h' : Translates spelling' symbols' code' u t) :
    Translates (spelling ++ spelling') (symbols ++ symbols') (code ++ code') s t := by
  constructor
  · rw [h.spelling, h'.spelling, List.append_assoc]
  · rw [declared_append_iff]
    exact ⟨u.symbols, h.symbols, h'.symbols⟩
  · rw [h'.code, h.code, Code.extend_extend]

variable {spelling : List Token} {code : List Instruction} {s t : Session}

theorem symbols_eq (h : Translates spelling [] code s t) : t.symbols = s.symbols := h.symbols

theorem scope_eq (h : Translates spelling [] code s t) :
    t.symbols.scope = s.symbols.scope := by
  rw [h.symbols_eq]

theorem size_eq {symbols : List Symbol} (h : Translates spelling symbols code s t) :
    t.code.size = s.code.size + code.length := by
  rw [h.code, Code.size_extend]

theorem capacity_eq {symbols : List Symbol} (h : Translates spelling symbols code s t) :
    t.code.capacity = s.code.capacity := by
  rw [h.code, Code.capacity_extend]

theorem of_emit {instruction : Instruction} (hop : instruction.op ≠ .jpc)
    (h : s.emit instruction = .ok t) : Translates [] [] [instruction] s t := by
  obtain ⟨⟨index, after⟩, hemit, rfl⟩ := map_eq_ok_iff.1 h
  obtain ⟨_, _, rfl⟩ := (Code.emit_eq_ok_iff_extend hop).1 hemit
  exact ⟨rfl, rfl, rfl⟩

theorem of_declare {symbol : Symbol} (h : s.declare symbol = .ok t) :
    Translates [] [symbol] [] s t := by
  obtain ⟨⟨id, after⟩, hdeclare, rfl⟩ := map_eq_ok_iff.1 h
  exact ⟨rfl, ⟨id, after, hdeclare, rfl⟩, by simp⟩

theorem of_advance {kind : Kind} (h : s.kind = kind) (hkind : kind ≠ .endOfInput) :
    Translates [s.token.bare] [] [] s s.advance := by
  rcases s with ⟨⟨passed, _ | ⟨token, rest⟩⟩, symbols, code, log⟩
  · exact absurd h.symm hkind
  · exact ⟨rfl, rfl, by simp [Session.advance]⟩

theorem of_plain {kind : Kind} (h : s.kind = kind)
    (hkind : kind ≠ .endOfInput ∧ kind ≠ .ident ∧ kind ≠ .number) :
    Translates [.plain kind] [] [] s s.advance := by
  rw [← (Token.bare_eq_plain_iff hkind.2.1 hkind.2.2).2 h]
  exact of_advance h hkind.1

theorem of_emit_advance {kind : Kind} {instruction : Instruction} (hop : instruction.op ≠ .jpc)
    (hemit : s.emit instruction = .ok t) (h : s.kind = kind) (hkind : kind ≠ .endOfInput) :
    Translates [s.token.bare] [] [instruction] s t.advance := by
  have hcursor := Session.cursor_emit hemit
  have htoken : t.token = s.token := by rw [Session.token, hcursor, Session.token]
  have hread : t.kind = kind := by rw [Session.kind, hcursor, ← h, Session.kind]
  rw [← htoken]
  simpa using (of_emit hop hemit).trans (of_advance hread hkind)

theorem of_branch {v w : Session} (hhole : s.emit .hole = .ok v)
    (h : Translates spelling [] code v w) (hpatch : w.patch s.code.size = .ok t) :
    Translates spelling []
      (.branch (Int32.ofNat (3 * (s.code.size + 1 + code.length))) :: code) s t := by
  obtain ⟨_, rfl⟩ := Session.emit_hole_eq_ok_iff.1 hhole
  have hcode : w.code = s.code.extendOpen code := by
    rw [h.code, Code.extend_extendOpen, List.nil_append]
  rw [Session.patch_eq hcode, hcode, Code.nextAddress_extendOpen] at hpatch
  cases hpatch
  exact ⟨h.spelling, h.symbols, rfl⟩

end Translates

namespace Session

theorem bare_token_of_ident {s : Session} (h : s.kind = .ident) :
    s.token.bare = .ident s.token.lexeme := Token.bare_eq_ident_iff.2 ⟨h, rfl⟩

theorem bare_token_of_number {s : Session} (h : s.kind = .number) :
    s.token.bare = .number s.token.value := Token.bare_eq_number_iff.2 ⟨h, rfl⟩

theorem symbol_eq_ok_iff {s : Session} {name : String} {symbol : Symbol} :
    s.symbol name = .ok symbol ↔ s.symbols.find? name = some symbol := by
  unfold Session.symbol
  split <;> simp_all

theorem locationOf_eq_ok_iff {s : Session} {name : String} {location : Location} :
    s.locationOf name = .ok location ↔ s.symbols.scope name = some (.var location) := by
  unfold locationOf SymbolTable.scope
  split
  · next h => simp [h]
  · next symbol h =>
    rw [h]
    cases hkind : symbol.kind <;> simp [Symbol.binding, hkind]

end Session

theorem Symbol.fetch_eq (symbol : Symbol) : symbol.fetch = symbol.binding.fetch := by
  unfold fetch binding
  cases symbol.kind <;> rfl

theorem Symbol.op_fetch_ne_jpc (symbol : Symbol) : symbol.fetch.op ≠ .jpc := by
  unfold fetch
  cases symbol.kind <;> simp [Instruction.literal, Instruction.load]

namespace Level

def task : Level → Task
  | factor => .factor
  | chain .product => .term
  | chain .sum => .expression

end Level

def Tier.more : Tier → Task
  | sum => .moreTerms
  | product => .moreFactors

namespace Task

theorem perform_chain (tier : Tier) (s : Session) :
    (Level.chain tier).task.perform s = .ok ([tier.operand.task, tier.more], s) := by
  cases tier <;> rfl

theorem perform_more_operator {tier : Tier} {s : Session} (operator : Operator tier)
    (h : s.kind = operator.kind) :
    tier.more.perform s =
      .ok ([tier.operand.task, emit (.operate operator.operation), tier.more], s.advance) := by
  cases operator <;> simp only [Tier.more, perform, h] <;> rfl

theorem perform_more_stop {tier : Tier} {s : Session}
    (h : ∀ operator : Operator tier, s.kind ≠ operator.kind) :
    tier.more.perform s = .ok ([], s) := by
  cases tier with
  | sum =>
    have hplus := h .plus
    have hminus := h .minus
    simp only [Tier.more, perform]
    split
    · next operation hsome =>
      unfold Operation.ofSign? at hsome
      split at hsome <;> simp_all [Operator.kind]
    · rfl
  | product =>
    have htimes := h .times
    have hslash := h .slash
    simp only [Tier.more, perform]
    split
    · next operation hsome =>
      unfold Operation.ofFactorSign? at hsome
      split at hsome <;> simp_all [Operator.kind]
    · rfl

theorem perform_relation {s : Session} (comparison : Comparison) (h : s.kind = comparison.kind) :
    relation.perform s =
      .ok ([expression, emit (.operate comparison.operation)], s.advance) := by
  cases comparison <;> simp only [perform, h] <;> rfl

end Task

theorem Comparison.exists_of_ofRelation? {kind : Kind} {operation : Operation}
    (h : Operation.ofRelation? kind = some operation) :
    ∃ comparison : Comparison, comparison.kind = kind ∧ comparison.operation = operation := by
  unfold Operation.ofRelation? at h
  split at h <;> cases h
  · exact ⟨.eql, rfl, rfl⟩
  · exact ⟨.neq, rfl, rfl⟩
  · exact ⟨.lss, rfl, rfl⟩
  · exact ⟨.leq, rfl, rfl⟩
  · exact ⟨.gtr, rfl, rfl⟩
  · exact ⟨.geq, rfl, rfl⟩

end PL0
