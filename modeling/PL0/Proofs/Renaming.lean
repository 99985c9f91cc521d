import PL0.Proofs.Move

/-!
This module contains how little a compilation knows of names and numbers. Names are only compared
with each other, and numbers are only passed on: to constants, and to the instructions that put them
on the stack. So a pass over a text with other names and other numbers takes the same steps, and
comes to the same result with its names and numbers replaced likewise.
-/

namespace PL0

/-- Other names, which differ from each other if the names do, and other numbers. -/
structure Renaming where
  name : String → String
  number : Word → Word
  injective : Function.Injective name

variable (r : Renaming)

namespace Token

def rename (token : Token) : Token :=
  if token.kind = .ident then { token with lexeme := r.name token.lexeme }
  else if token.kind = .number then { token with value := r.number token.value }
  else token

@[simp]
theorem kind_rename (token : Token) : (token.rename r).kind = token.kind := by
  unfold rename
  split
  · rfl
  · split <;> rfl

theorem lexeme_rename {token : Token} (h : token.kind = .ident) :
    (token.rename r).lexeme = r.name token.lexeme := by
  simp [rename, h]

theorem value_rename {token : Token} (h : token.kind = .number) :
    (token.rename r).value = r.number token.value := by
  simp [rename, h]

end Token

namespace Instruction

/-- Only the number that a literal puts on the stack is replaced. -/
def rename (instruction : Instruction) : Instruction :=
  if instruction.op = .lit then { instruction with modifier := r.number instruction.modifier }
  else instruction

@[simp]
theorem op_rename (instruction : Instruction) : (instruction.rename r).op = instruction.op := by
  unfold rename
  split <;> rfl

theorem rename_of_op_ne {instruction : Instruction} (h : instruction.op ≠ .lit) :
    instruction.rename r = instruction := by
  simp [rename, h]

@[simp]
theorem rename_literal (value : Word) : (literal value).rename r = literal (r.number value) := rfl

end Instruction

namespace Symbol

/-- The value of a variable is none of the numbers of the text. -/
def rename (symbol : Symbol) : Symbol :=
  { symbol with
    name := r.name symbol.name
    value := if symbol.kind = .const then r.number symbol.value else symbol.value }

@[simp]
theorem answersTo_rename (symbol : Symbol) (name : String) :
    (symbol.rename r).answersTo (r.name name) = symbol.answersTo name := by
  simp [answersTo, rename, Bool.beq_eq_decide_eq, r.injective.eq_iff]

end Symbol

def Binding.rename : Binding → Binding
  | const value => const (r.number value)
  | var location => var location

theorem Symbol.binding_rename (symbol : Symbol) :
    (symbol.rename r).binding = symbol.binding.rename r := by
  unfold binding rename
  cases symbol.kind <;> rfl

theorem Binding.fetch_rename (binding : Binding) :
    (binding.rename r).fetch = binding.fetch.rename r := by
  cases binding <;> rfl

def TargetProgram.rename (program : TargetProgram) : TargetProgram :=
  ⟨program.code.map (·.rename r), program.symbols.map (·.rename r)⟩

def Event.rename : Event → Event
  | loaded count path => loaded count path
  | declared symbol => declared (symbol.rename r)
  | patched index op target => patched index op target
  | aborted error fault instructions symbols => aborted error fault instructions symbols
  | finished tokens instructions symbols => finished tokens instructions symbols

def Report.rename (report : Report) : Report :=
  ⟨report.result.map (·.rename r), report.events.map (·.rename r)⟩

namespace Cursor

def rename (c : Cursor) : Cursor :=
  ⟨c.passed.map (·.rename r), c.rest.map (·.rename r)⟩

theorem current_rename (c : Cursor) : (c.rename r).current = c.current.rename r := by
  rcases c with ⟨passed, _ | ⟨token, rest⟩⟩ <;> rfl

theorem advance_rename (c : Cursor) : (c.rename r).advance = c.advance.rename r := by
  rcases c with ⟨passed, _ | ⟨token, rest⟩⟩ <;> rfl

theorem contains_rename (c : Cursor) (kind : Kind) :
    (c.rename r).contains kind = c.contains kind := by
  simp [contains, tokens, rename, Function.comp_def]

theorem ofTokens_rename (tokens : List Token) (limit : Nat) :
    ofTokens (tokens.map (·.rename r)) limit = (ofTokens tokens limit).map (·.rename r) := by
  unfold ofTokens
  rw [List.isEmpty_map, List.length_map]
  split
  · rfl
  · split <;> rfl

end Cursor

namespace SymbolTable

def rename (table : SymbolTable) : SymbolTable :=
  { table with newest := table.newest.map (·.rename r) }

@[simp]
theorem size_rename (table : SymbolTable) : (table.rename r).size = table.size :=
  List.length_map _

theorem find?_rename (table : SymbolTable) (name : String) :
    (table.rename r).find? (r.name name) = (table.find? name).map (·.rename r) := by
  unfold find? rename
  rw [List.find?_map]
  congr 2
  funext symbol
  exact symbol.answersTo_rename r name

theorem scope_rename (table : SymbolTable) (name : String) :
    (table.rename r).scope (r.name name) = (table.scope name).map (·.rename r) := by
  simp only [scope, find?_rename, Option.map_map, Function.comp_def, Symbol.binding_rename]

theorem declare_rename (table : SymbolTable) (symbol : Symbol) :
    (table.rename r).declare (symbol.rename r) =
      (table.declare symbol).map fun entered => (entered.1, entered.2.rename r) := by
  have hname : (symbol.rename r).name = r.name symbol.name := rfl
  have hcapacity : (table.rename r).capacity = table.capacity := rfl
  unfold declare
  rw [hname, find?_rename, Option.isSome_map, size_rename, hcapacity]
  split
  · rfl
  · split <;> rfl

theorem markAll_rename (table : SymbolTable) :
    (table.rename r).markAll = table.markAll.rename r := by
  simp only [markAll, rename, List.map_map]
  rfl

end SymbolTable

def Cell.rename (cell : Cell) : Cell :=
  { cell with instruction := cell.instruction.rename r }

namespace Code

def rename (code : Code) : Code :=
  { code with cells := code.cells.map (·.rename r) }

@[simp]
theorem size_rename (code : Code) : (code.rename r).size = code.size :=
  Array.size_map

theorem nextAddress_rename (code : Code) : (code.rename r).nextAddress = code.nextAddress := by
  rw [nextAddress, size_rename, nextAddress]

theorem emit_rename (code : Code) (instruction : Instruction) :
    (code.rename r).emit (instruction.rename r) =
      (code.emit instruction).map fun emitted => (emitted.1, emitted.2.rename r) := by
  have hcapacity : (code.rename r).capacity = code.capacity := rfl
  unfold emit
  rw [size_rename, hcapacity]
  split
  · simp [Except.map, rename, Cell.rename]
  · rfl

theorem patch_rename (code : Code) (index : Nat) (target : Word) :
    (code.rename r).patch index target =
      (code.patch index target).map fun patched => (patched.1, patched.2.rename r) := by
  -- A branch does not hold a number of the text, and so it stays as it is.
  have hcell : (code.rename r).cells[index]? = code.cells[index]?.map (·.rename r) :=
    Array.getElem?_map
  unfold patch
  rw [hcell]
  cases code.cells[index]? with
  | none => rfl
  | some cell =>
    simp only [Option.map_some, Cell.rename, Instruction.op_rename]
    split
    · rfl
    · next hbranch =>
      have hop : cell.instruction.op ≠ .lit := by
        intro hlit
        simp [hlit, Opcode.isBranch] at hbranch
      split
      · rfl
      · simp [Except.map, rename, Cell.rename, Instruction.rename, hop]

end Code

namespace Session

def rename (s : Session) : Session :=
  ⟨s.cursor.rename r, s.symbols.rename r, s.code.rename r, s.log.map (·.rename r)⟩

theorem start_rename (cursor : Cursor) (maxSymbols maxCodeLength : Nat) :
    (start cursor maxSymbols maxCodeLength).rename r =
      start (cursor.rename r) maxSymbols maxCodeLength := by
  simp [start, rename, SymbolTable.empty, SymbolTable.rename, Code.empty, Code.rename]

theorem advance_rename (s : Session) : (s.rename r).advance = s.advance.rename r := by
  simp only [advance, rename, Cursor.advance_rename]

theorem target_rename (s : Session) : (s.rename r).target = s.target.rename r := by
  simp [target, rename, TargetProgram.rename, Code.instructions, Code.rename, Cell.rename,
    SymbolTable.entries, SymbolTable.rename, Function.comp_def]

theorem events_rename (s : Session) : (s.rename r).events = s.events.map (·.rename r) := by
  simp [events, rename]

theorem closing_rename (s : Session) (tokens : Nat) (result : Except CompileError Unit) :
    (s.rename r).closing tokens result = (s.closing tokens result).rename r := by
  cases result <;> simp [closing, rename, Event.rename]

end Session

def Effect.rename : Effect → Effect
  | none => none
  | emit instruction => emit (instruction.rename r)
  | declare symbol => declare (symbol.rename r)
  | patch index => patch index
  | close => close

theorem Effect.apply_rename (effect : Effect) (s : Session) :
    (effect.rename r).apply (s.rename r) = (effect.apply s).map (·.rename r) := by
  cases effect with
  | none => rfl
  | emit instruction =>
    simp only [rename, apply, Session.emit, Session.rename, Code.emit_rename]
    cases s.code.emit instruction <;> rfl
  | declare symbol =>
    simp only [rename, apply, Session.declare, Session.rename, SymbolTable.declare_rename]
    cases s.symbols.declare symbol <;> rfl
  | patch index =>
    simp only [rename, apply, Session.patch, Session.rename, Code.patch_rename,
      Code.nextAddress_rename]
    cases s.code.patch index s.code.nextAddress <;> rfl
  | close =>
    have hemit := s.code.emit_rename r (.system .halt)
    rw [Instruction.rename_of_op_ne r (by simp [Instruction.system])] at hemit
    simp only [rename, apply, Session.emit, Session.rename, hemit]
    cases s.code.emit (.system .halt) with
    | error error => rfl
    | ok emitted => simp [Except.map, SymbolTable.markAll_rename]

namespace Task

/-- A task carries names and numbers that have been read and are not used yet. -/
def rename : Task → Task
  | emit instruction => emit (instruction.rename r)
  | declare symbol => declare (symbol.rename r)
  | constantValue name => constantValue (r.name name)
  | receive name => receive (r.name name)
  | expect kind fault => expect kind fault
  | patch index => patch index
  | constantPart => constantPart
  | constantName => constantName
  | moreConstants => moreConstants
  | variablePart => variablePart
  | variableName address => variableName address
  | moreVariables address => moreVariables address
  | statement => statement
  | moreStatements => moreStatements
  | readTarget => readTarget
  | thenPart => thenPart
  | loopPart start => loopPart start
  | condition => condition
  | relation => relation
  | expression => expression
  | moreTerms => moreTerms
  | term => term
  | moreFactors => moreFactors
  | factor => factor
  | finish => finish

end Task

def Move.rename (move : Move) : Move :=
  ⟨move.more.map (·.rename r), move.effect.rename r, move.reads⟩

section Scope

variable {r} {scope scope' : Scope}
  (hscope : ∀ name, scope' (r.name name) = (scope name).map (·.rename r))

include hscope

theorem Scope.variable_rename (name : String) :
    scope'.variable (r.name name) = scope.variable name := by
  unfold Scope.variable
  rw [hscope]
  cases scope name with
  | none => rfl
  | some binding => cases binding <;> rfl

theorem Scope.fetch_rename (name : String) :
    scope'.fetch (r.name name) = (scope.fetch name).map (·.rename r) := by
  unfold Scope.fetch
  rw [hscope]
  cases scope name with
  | none => rfl
  | some binding => simp [Except.map, Binding.fetch_rename]

theorem Task.move_rename (task : Task) (token : Token) (size : Nat) :
    (task.rename r).move (token.rename r) scope' size =
      (task.move token scope size).map (·.rename r) := by
  cases task with
  | emit | declare | patch | expression | term | thenPart | loopPart => rfl
  | receive name =>
    simp only [rename, move, Scope.variable_rename hscope]
    cases scope.variable name <;> rfl
  | statement =>
    simp only [rename, move, Token.kind_rename]
    cases hkind : token.kind with
    | ident =>
      simp only [Token.lexeme_rename r hkind, Scope.variable_rename hscope]
      cases scope.variable token.lexeme <;> rfl
    | _ => rfl
  | factor =>
    simp only [rename, move, Token.kind_rename]
    cases hkind : token.kind with
    | ident =>
      simp only [Token.lexeme_rename r hkind, Scope.fetch_rename hscope]
      cases scope.fetch token.lexeme <;> rfl
    | number =>
      simp only [Token.value_rename r hkind]
      rfl
    | _ => rfl
  | relation =>
    simp only [rename, move, Token.kind_rename]
    cases Operation.ofRelation? token.kind <;> rfl
  | moreTerms =>
    simp only [rename, move, Token.kind_rename]
    cases Operation.ofSign? token.kind <;> rfl
  | moreFactors =>
    simp only [rename, move, Token.kind_rename]
    cases Operation.ofFactorSign? token.kind <;> rfl
  | constantName | variableName | readTarget =>
    simp only [rename, move, Token.kind_rename]
    split
    · next hkind =>
      rw [Token.lexeme_rename r hkind]
      rfl
    · rfl
  | constantValue =>
    simp only [rename, move, Token.kind_rename]
    split
    · next hkind =>
      rw [Token.value_rename r hkind]
      rfl
    · rfl
  | _ =>
    simp only [rename, move, Token.kind_rename]
    split <;> rfl

end Scope

theorem Task.perform_rename (task : Task) (s : Session) :
    (task.rename r).perform (s.rename r) =
      (task.perform s).map fun done => (done.1.map (·.rename r), done.2.rename r) := by
  have hmove : (task.rename r).move (s.rename r).token (s.rename r).symbols.scope
      (s.rename r).code.size =
        (task.move s.token s.symbols.scope s.code.size).map (·.rename r) := by
    have htoken : (s.rename r).token = s.token.rename r := s.cursor.current_rename r
    have hsize : (s.rename r).code.size = s.code.size := s.code.size_rename r
    rw [htoken, hsize]
    apply move_rename
    apply SymbolTable.scope_rename
  rw [perform_eq, perform_eq, hmove]
  cases task.move s.token s.symbols.scope s.code.size with
  | error fault => rfl
  | ok move =>
    have happly := move.effect.apply_rename r s
    simp only [Except.map, carryOut, Move.perform, Move.rename] at happly ⊢
    rw [happly]
    cases move.effect.apply s with
    | error error => rfl
    | ok t =>
      cases hreads : move.reads with
      | false => rfl
      | true => simp [Session.advance_rename]

namespace Pass

def rename (p : Pass) : Pass :=
  ⟨p.agenda.map (·.rename r), p.session.rename r⟩

theorem matches_step_rename (p : Pass) :
    Step.Matches (fun p p' => p' = p.rename r) p.step (p.rename r).step := by
  rcases p with ⟨_ | ⟨task, rest⟩, s⟩
  · exact .done
  · have hperform := task.perform_rename r s
    cases h : task.perform s with
    | error error =>
      rw [h] at hperform
      rw [step_of_error h, rename, List.map_cons, step_of_error hperform]
      exact .failed error
    | ok done =>
      rw [h] at hperform
      rw [step_of_ok h, rename, List.map_cons, step_of_ok hperform]
      apply Step.Matches.next
      simp [rename]

theorem run_rename {p q : Pass} {result : Except CompileError Unit} (h : p.run = (result, q)) :
    (p.rename r).run = (result, q.rename r) := by
  have hstep : ∀ {p p' : Pass}, p.run = (result, q) → p' = p.rename r →
      Step.Matches (fun p p' => p' = p.rename r) p.step p'.step := by
    rintro p _ _ rfl
    exact p.matches_step_rename r
  obtain ⟨_, hrun, rfl⟩ := run_of_matches hstep h rfl
  exact hrun

end Pass

theorem Session.pass_rename {s t : Session} {result : Except CompileError Unit}
    (h : s.pass = (result, t)) : (s.rename r).pass = (result, t.rename r) := by
  have hcontains := s.cursor.contains_rename r .skip
  obtain ⟨hskip, rfl, rfl⟩ | ⟨hskip, q, hrun, rfl⟩ := pass_cases h
  · exact if_pos (hcontains.trans hskip)
  · exact pass_of_run (hcontains.trans hskip) (Pass.run_rename r hrun)

/--
Whatever names and numbers a text is given in place of its own, as long as different names stay
different, its compilation fails in the same way, or it comes to the same program up to the names of
the symbols, the values of the constants and the numbers that literals put on the stack.
-/
theorem compile_rename (tokens : List Token) (limits : Limits) :
    compile (tokens.map (·.rename r)) limits = (compile tokens limits).rename r := by
  have hcursor' := Cursor.ofTokens_rename r tokens limits.maxTokens
  cases hcursor : Cursor.ofTokens tokens limits.maxTokens with
  | error error =>
    rw [hcursor] at hcursor'
    rw [compile_of_error hcursor, compile_of_error hcursor']
    rfl
  | ok cursor =>
    rw [hcursor] at hcursor'
    rcases hpass : (Session.start cursor limits.maxSymbols limits.maxCodeLength).pass with
      ⟨result, t⟩
    have hpass' := Session.pass_rename r hpass
    rw [Session.start_rename] at hpass'
    rw [compile_of_pass hcursor hpass, compile_of_pass hcursor' hpass', Session.target_rename,
      Session.events_rename, Session.closing_rename, List.length_map]
    cases result <;> simp [Report.rename, Except.map]

/-- The numbers grow, and no name is one of the old ones. -/
def Renaming.primed : Renaming where
  name name := name ++ "'"
  number := (· + 1)
  injective _ _ h := (String.append_left_inj "'").1 h

theorem compile_rename_primed :
    (compile ([.plain .constSym, .ident "n", .plain .eql, .number 2, .plain .semicolon,
        .plain .writeSym, .ident "n", .plain .plus, .number 3, .plain .period].map
        (Token.rename .primed)) {}).result =
      .ok ⟨[.jump 3, .reserve 3, .literal 3, .literal 4, .operate .add, .system .write,
        .system .halt], [⟨.const, "n'", 3, 0, 0, true⟩]⟩ := by
  rw [compile_rename]
  decide +kernel

end PL0
