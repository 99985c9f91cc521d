import PL0.Proofs.Translation.Basic

/-!
This module contains what a single step of a pass can do. A task is decided on by the next token, by
what names mean and by how much code there is: it is a fault, or a move. A move says which tasks
take the place of the task, what happens to the symbols and the code, and whether the token is read.
Only the effect of a move can run into a limit, and nothing else of the session is looked at.
-/

namespace PL0

open Except (map_eq_ok_iff map_eq_error_iff)

/-- What a task does to the symbols and to the code. -/
inductive Effect where
  | none
  | emit (instruction : Instruction)
  | declare (symbol : Symbol)
  | patch (index : Nat)
  /-- The code ends here, and the names are out of sight. -/
  | close
  deriving DecidableEq, Repr

def Effect.apply (effect : Effect) (s : Session) : Except CompileError Session :=
  match effect with
  | none => .ok s
  | emit instruction => s.emit instruction
  | declare symbol => s.declare symbol
  | patch index => s.patch index
  | close => (s.emit (.system .halt)).map fun t => { t with symbols := t.symbols.markAll }

structure Move where
  /-- The tasks that take the place of the task. -/
  more : List Task
  effect : Effect
  /-- Whether the next token is read. -/
  reads : Bool
  deriving DecidableEq, Repr

def Move.perform (move : Move) (s : Session) : Except CompileError (List Task × Session) :=
  (move.effect.apply s).map fun t => (move.more, if move.reads then t.advance else t)

namespace Session

variable (s : Session) (reads : Bool)

@[simp]
theorem symbols_read : (if reads then s.advance else s).symbols = s.symbols := by
  cases reads <;> rfl

@[simp]
theorem code_read : (if reads then s.advance else s).code = s.code := by
  cases reads <;> rfl

end Session

/-- Where the variable is that `name` means. -/
def Scope.variable (scope : Scope) (name : String) : Except Fault Location :=
  match scope name with
  | none => .error .undeclaredIdentifier
  | some (.const _) => .error .assignmentToConstant
  | some (.var location) => .ok location

/-- The instruction that puts the value of `name` on the stack. -/
def Scope.fetch (scope : Scope) (name : String) : Except Fault Instruction :=
  match scope name with
  | none => .error .undeclaredIdentifier
  | some binding => .ok binding.fetch

theorem Scope.op_of_fetch {scope : Scope} {name : String} {instruction : Instruction}
    (h : scope.fetch name = .ok instruction) : instruction.op = .lit ∨ instruction.op = .lod := by
  unfold fetch at h
  split at h
  · cases h
  · next binding _ =>
    cases h
    cases binding with
    | const value => exact .inl rfl
    | var location => exact .inr rfl

namespace Task

/--
What the task comes to when the given token is next, names mean what the scope says and there are
`size` instructions.
-/
def move (task : Task) (token : Token) (scope : Scope) (size : Nat) : Except Fault Move :=
  match task with
  | emit instruction => .ok ⟨[], .emit instruction, false⟩
  | expect kind fault => if token.kind = kind then .ok ⟨[], .none, true⟩ else .error fault
  | declare symbol => .ok ⟨[], .declare symbol, false⟩
  | patch index => .ok ⟨[], .patch index, false⟩
  | constantPart =>
    if token.kind = .constSym then .ok ⟨[constantName], .none, true⟩ else .ok ⟨[], .none, false⟩
  | constantName =>
    if token.kind = .ident then
      .ok ⟨[expect .eql .equalsExpected, constantValue token.lexeme], .none, true⟩
    else .error .identifierExpected
  | constantValue name =>
    if token.kind = .number then
      .ok ⟨[declare (.const name token.value), moreConstants], .none, true⟩
    else .error .numberExpected
  | moreConstants =>
    if token.kind = .comma then .ok ⟨[constantName], .none, true⟩
    else .ok ⟨[expect .semicolon .semicolonExpected], .none, false⟩
  | variablePart =>
    if token.kind = .varSym then .ok ⟨[variableName frameStart], .none, true⟩
    else .ok ⟨[emit (.reserve frameStart)], .none, false⟩
  | variableName address =>
    if token.kind = .ident then
      .ok ⟨[declare (.var token.lexeme address), moreVariables (address + 1)], .none, true⟩
    else .error .identifierExpected
  | moreVariables address =>
    if token.kind = .comma then .ok ⟨[variableName address], .none, true⟩
    else .ok ⟨[expect .semicolon .semicolonExpected, emit (.reserve address)], .none, false⟩
  | statement =>
    match token.kind with
    | .ident =>
      match scope.variable token.lexeme with
      | .error fault => .error fault
      | .ok location =>
        .ok ⟨[expect .becomes .becomesExpected, expression, emit (.store location)], .none, true⟩
    | .readSym => .ok ⟨[readTarget], .none, true⟩
    | .writeSym => .ok ⟨[expression, emit (.system .write)], .none, true⟩
    | .beginSym => .ok ⟨[statement, moreStatements], .none, true⟩
    | .ifSym => .ok ⟨[condition, thenPart], .none, true⟩
    | .whileSym => .ok ⟨[condition, loopPart (Instruction.wordAddress size)], .none, true⟩
    | _ => .ok ⟨[], .none, false⟩
  | moreStatements =>
    if token.kind = .semicolon then .ok ⟨[statement, moreStatements], .none, true⟩
    else .ok ⟨[expect .endSym .endExpected], .none, false⟩
  | readTarget =>
    if token.kind = .ident then .ok ⟨[receive token.lexeme], .none, true⟩
    else .error .identifierExpected
  | receive name =>
    match scope.variable name with
    | .error fault => .error fault
    | .ok location => .ok ⟨[emit (.system .read), emit (.store location)], .none, false⟩
  | thenPart =>
    .ok ⟨[expect .thenSym .thenExpected, statement, patch size, expect .fiSym .fiExpected],
      .emit .hole, false⟩
  | loopPart start =>
    .ok ⟨[expect .doSym .doExpected, statement, emit (.jump start), patch size], .emit .hole, false⟩
  | condition =>
    if token.kind = .evenSym then .ok ⟨[expression, emit (.operate .even)], .none, true⟩
    else .ok ⟨[expression, relation], .none, false⟩
  | relation =>
    match Operation.ofRelation? token.kind with
    | some operation => .ok ⟨[expression, emit (.operate operation)], .none, true⟩
    | none => .error .relationExpected
  | expression => .ok ⟨[term, moreTerms], .none, false⟩
  | moreTerms =>
    match Operation.ofSign? token.kind with
    | some operation => .ok ⟨[term, emit (.operate operation), moreTerms], .none, true⟩
    | none => .ok ⟨[], .none, false⟩
  | term => .ok ⟨[factor, moreFactors], .none, false⟩
  | moreFactors =>
    match Operation.ofFactorSign? token.kind with
    | some operation => .ok ⟨[factor, emit (.operate operation), moreFactors], .none, true⟩
    | none => .ok ⟨[], .none, false⟩
  | factor =>
    match token.kind with
    | .ident =>
      match scope.fetch token.lexeme with
      | .error fault => .error fault
      | .ok instruction => .ok ⟨[], .emit instruction, true⟩
    | .number => .ok ⟨[], .emit (.literal token.value), true⟩
    | .lparen => .ok ⟨[expression, expect .rparen .rightParenExpected], .none, true⟩
    | _ => .error .factorExpected
  | finish => if token.kind = .period then .ok ⟨[], .close, false⟩ else .error .periodExpected

/-- A move is made, and a fault is an error. -/
def carryOut (plan : Except Fault Move) (s : Session) : Except CompileError (List Task × Session) :=
  match plan with
  | .error fault => .error (.fault fault)
  | .ok move => move.perform s

theorem locationOf_eq_variable (s : Session) (name : String) :
    s.locationOf name = (s.symbols.scope.variable name).mapError .fault := by
  unfold Session.locationOf Scope.variable SymbolTable.scope
  cases s.symbols.find? name with
  | none => rfl
  | some symbol =>
    simp only [Option.map_some, Symbol.binding]
    cases symbol.kind <;> rfl

theorem performStatement_eq (s : Session) :
    performStatement s = carryOut (statement.move s.token s.symbols.scope s.code.size) s := by
  unfold performStatement move
  have hkind : s.token.kind = s.kind := rfl
  rw [hkind]
  cases s.kind with
  | ident =>
    simp only [locationOf_eq_variable]
    cases s.symbols.scope.variable s.token.lexeme <;> rfl
  | _ => rfl

theorem performFactor_eq (s : Session) :
    performFactor s = carryOut (factor.move s.token s.symbols.scope s.code.size) s := by
  unfold performFactor move
  have hkind : s.token.kind = s.kind := rfl
  rw [hkind]
  cases s.kind with
  | ident =>
    unfold Session.symbol Scope.fetch SymbolTable.scope
    cases s.symbols.find? s.token.lexeme with
    | none => rfl
    | some symbol =>
      simp only [Option.map_some, ← Symbol.fetch_eq]
      rfl
  | _ => rfl

theorem perform_eq (task : Task) (s : Session) :
    task.perform s = carryOut (task.move s.token s.symbols.scope s.code.size) s := by
  have hkind : s.token.kind = s.kind := rfl
  cases task with
  | statement => exact performStatement_eq s
  | factor => exact performFactor_eq s
  | receive name =>
    rw [perform, move, locationOf_eq_variable]
    cases s.symbols.scope.variable name <;> rfl
  | emit | declare | patch | thenPart | loopPart | expression | term => rfl
  | relation =>
    rw [perform, move, hkind]
    cases Operation.ofRelation? s.kind <;> rfl
  | moreTerms =>
    rw [perform, move, hkind]
    cases Operation.ofSign? s.kind <;> rfl
  | moreFactors =>
    rw [perform, move, hkind]
    cases Operation.ofFactorSign? s.kind <;> rfl
  | finish =>
    rw [perform, move, hkind]
    split
    · simp only [carryOut, Move.perform, Effect.apply]
      cases s.emit (.system .halt) <;> rfl
    · rfl
  | _ =>
    rw [perform, move, hkind]
    split <;> rfl

theorem perform_eq_ok_iff {task : Task} {s t : Session} {more : List Task} :
    task.perform s = .ok (more, t) ↔
      ∃ move u, task.move s.token s.symbols.scope s.code.size = .ok move ∧
        move.effect.apply s = .ok u ∧ more = move.more ∧
          t = if move.reads then u.advance else u := by
  rw [perform_eq]
  cases task.move s.token s.symbols.scope s.code.size with
  | error fault => simp [carryOut]
  | ok move =>
    simp only [carryOut, Move.perform, map_eq_ok_iff, Prod.mk.injEq, Except.ok.injEq]
    constructor
    · rintro ⟨u, hu, rfl, rfl⟩
      exact ⟨move, u, rfl, hu, rfl, rfl⟩
    · rintro ⟨_, u, rfl, hu, rfl, rfl⟩
      exact ⟨u, hu, rfl, rfl⟩

theorem perform_eq_error_iff {task : Task} {s : Session} {error : CompileError} :
    task.perform s = .error error ↔
      (∃ fault, task.move s.token s.symbols.scope s.code.size = .error fault ∧
        error = .fault fault) ∨
      ∃ move, task.move s.token s.symbols.scope s.code.size = .ok move ∧
        move.effect.apply s = .error error := by
  rw [perform_eq]
  cases task.move s.token s.symbols.scope s.code.size with
  | error fault => simp [carryOut, eq_comm]
  | ok move =>
    simp only [carryOut, Move.perform, reduceCtorEq, false_and, exists_false, false_or,
      Except.ok.injEq, exists_eq_left']
    cases move.effect.apply s <;> simp [Except.map]

/--
The tasks of a program but its last one: no branch is emitted that would have to be directed, and
what is expected is neither a name nor a number nor the end.
-/
def Proper : Task → Prop
  | emit instruction => instruction.op ≠ .jpc
  | expect kind _ => kind ∉ [.ident, .number, .period, .endOfInput]
  | finish => False
  | _ => True

variable {task : Task} {token : Token} {scope : Scope} {size : Nat} {move : Move}

theorem proper_of_move (h : task.move token scope size = .ok move) :
    ∀ next ∈ move.more, next.Proper := by
  revert h
  fun_cases Task.move task token scope size
  all_goals
    rintro ⟨⟩
    try simp [Proper, Instruction.store, Instruction.system, Instruction.reserve, Instruction.jump,
      Instruction.operate]

theorem kind_ne_of_reads (htask : task.Proper) (h : task.move token scope size = .ok move)
    (hreads : move.reads = true) : token.kind ≠ .period ∧ token.kind ≠ .endOfInput := by
  suffices hkind : ¬ (token.kind = .period ∨ token.kind = .endOfInput) from not_or.1 hkind
  revert h
  fun_cases Task.move task token scope size
  all_goals
    rintro ⟨⟩
    try simp_all [Proper]
  -- What is left are the operators, of which neither kind is one.
  all_goals
    constructor
    all_goals
      intro hkind
      simp_all [Operation.ofRelation?, Operation.ofSign?, Operation.ofFactorSign?]

theorem move_bare (task : Task) (token : Token) (scope : Scope) (size : Nat) :
    task.move token.bare scope size = task.move token scope size := by
  have hident : token.kind = .ident → token.bare.lexeme = token.lexeme := by
    intro hkind
    rw [Token.bare_eq_ident_iff.2 ⟨hkind, rfl⟩]
    rfl
  have hnumber : token.kind = .number → token.bare.value = token.value := by
    intro hkind
    rw [Token.bare_eq_number_iff.2 ⟨hkind, rfl⟩]
    rfl
  cases task <;> simp only [move, Token.kind_bare]
  case constantName | variableName | readTarget | constantValue =>
    split <;> simp only [*]
  case statement | factor =>
    cases hkind : token.kind <;> simp only [hident, hnumber, hkind]

end Task

namespace Effect

/-- What an effect leads to if it does not fail. -/
inductive Does (s : Session) : Effect → Session → Prop where
  | none : Does s .none s
  | emit {instruction : Instruction} {index : Nat} {code : Code}
      (hemit : s.code.emit instruction = .ok (index, code)) :
      Does s (.emit instruction) { s with code }
  | declare {symbol : Symbol} {id : Nat} {symbols : SymbolTable}
      (hdeclare : s.symbols.declare symbol = .ok (id, symbols)) :
      Does s (.declare symbol) { s with symbols, log := .declared symbol :: s.log }
  | patch {index : Nat} {branch : Instruction} {code : Code}
      (hpatch : s.code.patch index s.code.nextAddress = .ok (branch, code)) :
      Does s (.patch index)
        { s with code, log := .patched index branch.op branch.modifier :: s.log }
  | close {index : Nat} {code : Code} (hemit : s.code.emit (.system .halt) = .ok (index, code)) :
      Does s .close { s with code, symbols := s.symbols.markAll }

theorem apply_eq_ok_iff {effect : Effect} {s t : Session} :
    effect.apply s = .ok t ↔ effect.Does s t := by
  constructor
  · intro h
    cases effect with
    | none =>
      cases h
      exact .none
    | emit instruction =>
      obtain ⟨_, hemit, rfl⟩ := map_eq_ok_iff.1 h
      exact .emit hemit
    | declare symbol =>
      obtain ⟨_, hdeclare, rfl⟩ := map_eq_ok_iff.1 h
      exact .declare hdeclare
    | patch index =>
      obtain ⟨_, hpatch, rfl⟩ := map_eq_ok_iff.1 h
      exact .patch hpatch
    | close =>
      obtain ⟨_, hclose, rfl⟩ := map_eq_ok_iff.1 h
      obtain ⟨_, hemit, rfl⟩ := map_eq_ok_iff.1 hclose
      exact .close hemit
  · intro h
    cases h with
    | none => rfl
    | emit hemit => exact map_eq_ok_iff.2 ⟨_, hemit, rfl⟩
    | declare hdeclare => exact map_eq_ok_iff.2 ⟨_, hdeclare, rfl⟩
    | patch hpatch => exact map_eq_ok_iff.2 ⟨_, hpatch, rfl⟩
    | close hemit => exact map_eq_ok_iff.2 ⟨_, map_eq_ok_iff.2 ⟨_, hemit, rfl⟩, rfl⟩

theorem cursor_apply {effect : Effect} {s t : Session} (h : effect.apply s = .ok t) :
    t.cursor = s.cursor := by
  cases apply_eq_ok_iff.1 h <;> rfl

end Effect

/--
How an effect can fail: there is no room for it, or the name has a meaning already, or there is no
such branch.
-/
inductive Effect.Fails (s : Session) : Effect → CompileError → Prop where
  | emit (instruction : Instruction) (hfull : s.code.capacity ≤ s.code.size) :
      Fails s (.emit instruction) (.codeOverflow s.code.capacity)
  | close (hfull : s.code.capacity ≤ s.code.size) :
      Fails s .close (.codeOverflow s.code.capacity)
  | duplicate {symbol : Symbol} (hfound : (s.symbols.find? symbol.name).isSome) :
      Fails s (.declare symbol) (.fault .duplicateSymbol)
  | declare {symbol : Symbol} (hfresh : ¬ (s.symbols.find? symbol.name).isSome)
      (hfull : s.symbols.capacity ≤ s.symbols.size) :
      Fails s (.declare symbol) (.symbolTableFull s.symbols.capacity)
  | patch {index : Nat} {cause : PatchError}
      (hpatch : s.code.patch index s.code.nextAddress = .error (.invalidPatch index cause)) :
      Fails s (.patch index) (.invalidPatch index cause)

theorem Code.emit_eq_error_iff {code : Code} {instruction : Instruction} {error : CompileError} :
    code.emit instruction = .error error ↔
      code.capacity ≤ code.size ∧ error = .codeOverflow code.capacity := by
  unfold emit
  split
  · next hfree => simp [Nat.not_le.2 hfree]
  · next hfull => simp [Nat.le_of_not_lt hfull, eq_comm]

theorem Code.exists_of_patch_eq_error {code : Code} {index : Nat} {target : Word}
    {error : CompileError} (h : code.patch index target = .error error) :
    ∃ cause, error = .invalidPatch index cause := by
  unfold patch at h
  split at h
  · cases h
    exact ⟨_, rfl⟩
  · split at h
    · cases h
      exact ⟨_, rfl⟩
    · split at h
      · cases h
        exact ⟨_, rfl⟩
      · cases h

theorem Effect.fails_of_apply {effect : Effect} {s : Session} {error : CompileError}
    (h : effect.apply s = .error error) : effect.Fails s error := by
  cases effect with
  | none => cases h
  | emit instruction =>
    obtain ⟨hfull, rfl⟩ := Code.emit_eq_error_iff.1 (map_eq_error_iff.1 h)
    exact .emit instruction hfull
  | declare symbol =>
    have hdeclare := map_eq_error_iff.1 h
    unfold SymbolTable.declare at hdeclare
    split at hdeclare
    · next hfound =>
      cases hdeclare
      exact .duplicate hfound
    · next hfresh =>
      split at hdeclare
      · next hfull =>
        cases hdeclare
        exact .declare hfresh hfull
      · cases hdeclare
  | patch index =>
    have hpatch := map_eq_error_iff.1 h
    obtain ⟨cause, rfl⟩ := Code.exists_of_patch_eq_error hpatch
    exact .patch hpatch
  | close =>
    obtain ⟨hfull, rfl⟩ := Code.emit_eq_error_iff.1 (map_eq_error_iff.1 (map_eq_error_iff.1 h))
    exact .close hfull

theorem Cursor.position_advance {c : Cursor} (h : c.kind ≠ .endOfInput) :
    c.advance.position = c.position + 1 := by
  rcases c with ⟨passed, _ | ⟨token, rest⟩⟩
  · exact absurd rfl h
  · rfl

namespace Pass

theorem step_of_ok {task : Task} {rest more : List Task} {s t : Session}
    (h : task.perform s = .ok (more, t)) : step ⟨task :: rest, s⟩ = .next ⟨more ++ rest, t⟩ := by
  simp only [step, h]

theorem step_of_error {task : Task} {rest : List Task} {s : Session} {error : CompileError}
    (h : task.perform s = .error error) : step ⟨task :: rest, s⟩ = .failed error := by
  simp only [step, h]

theorem exists_of_step {p q : Pass} (h : p.step = .next q) :
    ∃ task rest more t, p.agenda = task :: rest ∧ task.perform p.session = .ok (more, t) ∧
      q = ⟨more ++ rest, t⟩ := by
  rcases p with ⟨_ | ⟨task, rest⟩, s⟩
  · cases h
  · simp only [step] at h
    split at h
    · cases h
    · next more t hperform =>
      cases h
      exact ⟨task, rest, more, t, rfl, hperform, rfl⟩

theorem agenda_of_done {p : Pass} (h : p.step = .done) : p.agenda = [] := by
  rcases p with ⟨_ | ⟨task, rest⟩, s⟩
  · rfl
  · simp only [step] at h
    split at h <;> cases h

theorem exists_of_failed {p : Pass} {error : CompileError} (h : p.step = .failed error) :
    ∃ task rest, p.agenda = task :: rest ∧ task.perform p.session = .error error := by
  rcases p with ⟨_ | ⟨task, rest⟩, s⟩
  · cases h
  · simp only [step] at h
    split at h
    · next hperform =>
      cases h
      exact ⟨task, rest, rfl, hperform⟩
    · cases h

theorem run_of_step (Keeps : Pass → Prop)
    (hstep : ∀ {p q : Pass}, p.step = .next q → Keeps p → Keeps q) {p q : Pass}
    {result : Except CompileError Unit} (hrun : p.run = (result, q)) (h : Keeps p) : Keeps q := by
  induction p using run.induct with
  | case1 p hdone =>
    rw [run_eq_of_done hdone] at hrun
    cases hrun
    exact h
  | case2 p error hfailed =>
    rw [run_eq_of_failed hfailed] at hrun
    cases hrun
    exact h
  | case3 p p' hnext ih =>
    rw [run_eq_of_step hnext] at hrun
    exact ih hrun (hstep hnext h)

theorem step_of_run {p q : Pass} {result : Except CompileError Unit} (hrun : p.run = (result, q)) :
    (result = .ok () ∧ q.agenda = []) ∨
      ∃ error, result = .error error ∧ q.step = .failed error := by
  induction p using run.induct with
  | case1 p hdone =>
    rw [run_eq_of_done hdone] at hrun
    cases hrun
    exact .inl ⟨rfl, agenda_of_done hdone⟩
  | case2 p error hfailed =>
    rw [run_eq_of_failed hfailed] at hrun
    cases hrun
    exact .inr ⟨error, rfl, hfailed⟩
  | case3 p p' hnext ih =>
    rw [run_eq_of_step hnext] at hrun
    exact ih hrun

/-- Two steps have the same outcome, up to `R` where they go on. -/
inductive Step.Matches (R : Pass → Pass → Prop) : Step → Step → Prop where
  | done : Matches R .done .done
  | failed (error : CompileError) : Matches R (.failed error) (.failed error)
  | next {p p' : Pass} (h : R p p') : Matches R (.next p) (.next p')

theorem run_of_matches {R : Pass → Pass → Prop} {result : Except CompileError Unit} {q : Pass}
    (hstep : ∀ {p p' : Pass}, p.run = (result, q) → R p p' → Step.Matches R p.step p'.step)
    {p p' : Pass} (hrun : p.run = (result, q)) (h : R p p') :
    ∃ q', p'.run = (result, q') ∧ R q q' := by
  induction p using run.induct generalizing p' with
  | case1 p hdone =>
    have hmatches := hstep hrun h
    rw [hdone] at hmatches
    rw [run_eq_of_done hdone] at hrun
    cases hrun
    generalize hstep' : p'.step = step' at hmatches
    cases hmatches
    exact ⟨p', run_eq_of_done hstep', h⟩
  | case2 p error hfailed =>
    have hmatches := hstep hrun h
    rw [hfailed] at hmatches
    rw [run_eq_of_failed hfailed] at hrun
    cases hrun
    generalize hstep' : p'.step = step' at hmatches
    cases hmatches
    exact ⟨p', run_eq_of_failed hstep', h⟩
  | case3 p next hnext ih =>
    have hmatches := hstep hrun h
    rw [hnext] at hmatches
    rw [run_eq_of_step hnext] at hrun
    generalize hstep' : p'.step = step' at hmatches
    cases hmatches with
    | next hR =>
      rw [run_eq_of_step hstep']
      exact ih hrun hR

/--
A pass over a program: what is left to be done ends with `finish`, until the program has come to its
end and nothing is left.
-/
inductive Proper : Pass → Prop where
  | underWay {tasks : List Task} (htasks : ∀ task ∈ tasks, task.Proper) (s : Session) :
      Proper ⟨tasks ++ [.finish], s⟩
  | ended {s : Session} (hkind : s.kind = .period) : Proper ⟨[], s⟩

theorem proper_program (s : Session) : Proper ⟨Task.program, s⟩ := by
  apply @Proper.underWay [_, _, _, _]
  simp [Task.Proper, Instruction.jump]

theorem Proper.proper_or_finish {p : Pass} (h : p.Proper) {task : Task} {rest : List Task}
    (hagenda : p.agenda = task :: rest) : task.Proper ∨ task = .finish := by
  cases h with
  | ended => cases hagenda
  | @underWay tasks htasks s =>
    cases tasks with
    | nil =>
      cases hagenda
      exact .inr rfl
    | cons first tasks =>
      cases hagenda
      exact .inl (htasks task List.mem_cons_self)

theorem Proper.exists_of_step {p q : Pass} (h : p.Proper) (hstep : p.step = .next q) :
    (∃ task tasks move t, p.agenda = task :: (tasks ++ [.finish]) ∧ task.Proper ∧
      (∀ other ∈ tasks, other.Proper) ∧
        task.move p.session.token p.session.symbols.scope p.session.code.size = .ok move ∧
          move.effect.apply p.session = .ok t ∧
            q = ⟨move.more ++ (tasks ++ [.finish]), if move.reads then t.advance else t⟩) ∨
    ∃ t, p.agenda = [.finish] ∧ p.session.kind = .period ∧
      Effect.close.apply p.session = .ok t ∧ q = ⟨[], t⟩ := by
  obtain ⟨task, rest, more, t, hagenda, hperform, rfl⟩ := Pass.exists_of_step hstep
  obtain ⟨move, u, hmove, hu, rfl, rfl⟩ := Task.perform_eq_ok_iff.1 hperform
  cases h with
  | ended => cases hagenda
  | @underWay tasks htasks s =>
    cases tasks with
    | nil =>
      cases hagenda
      simp only [Task.move] at hmove
      split at hmove
      · next hkind =>
        cases hmove
        exact .inr ⟨u, rfl, hkind, hu, rfl⟩
      · cases hmove
    | cons first tasks =>
      cases hagenda
      simp only [List.mem_cons, forall_eq_or_imp] at htasks
      exact .inl ⟨task, tasks, move, u, rfl, htasks.1, htasks.2, hmove, hu, rfl⟩

theorem Proper.step {p q : Pass} (hstep : p.step = .next q) (h : p.Proper) : q.Proper := by
  obtain ⟨task, tasks, move, t, _, _, htasks, hmove, _, rfl⟩ | ⟨t, _, hkind, happly, rfl⟩ :=
    h.exists_of_step hstep
  · rw [← List.append_assoc]
    apply underWay
    intro next hnext
    cases List.mem_append.1 hnext with
    | inl hmore => exact Task.proper_of_move hmove next hmore
    | inr hrest => exact htasks next hrest
  · apply ended
    rw [Session.kind, Effect.cursor_apply happly]
    exact hkind

theorem Proper.run_of_step (Keeps : Pass → Prop)
    (hstep : ∀ {p q : Pass}, p.Proper → p.step = .next q → Keeps p → Keeps q) {p q : Pass}
    {result : Except CompileError Unit} (hproper : p.Proper) (hrun : p.run = (result, q))
    (h : Keeps p) : q.Proper ∧ Keeps q := by
  apply Pass.run_of_step (fun p => p.Proper ∧ Keeps p) _ hrun ⟨hproper, h⟩
  rintro p q hnext ⟨hproper, h⟩
  exact ⟨hproper.step hnext, hstep hproper hnext h⟩

theorem tokens_step {p q : Pass} (h : p.step = .next q) :
    q.session.cursor.tokens = p.session.cursor.tokens := by
  obtain ⟨task, rest, more, t, _, hperform, rfl⟩ := exists_of_step h
  obtain ⟨move, u, _, hu, _, rfl⟩ := Task.perform_eq_ok_iff.1 hperform
  rw [← Effect.cursor_apply hu]
  cases move.reads with
  | false => rfl
  | true => exact u.cursor.tokens_advance

theorem tokens_run {p q : Pass} {result : Except CompileError Unit} (h : p.run = (result, q)) :
    q.session.cursor.tokens = p.session.cursor.tokens := by
  refine run_of_step (fun q => q.session.cursor.tokens = p.session.cursor.tokens) ?_ h rfl
  intro p' q' hnext hp'
  rw [tokens_step hnext, hp']

end Pass

theorem Session.pass_cases {s t : Session} {result : Except CompileError Unit}
    (h : s.pass = (result, t)) :
    (s.cursor.contains .skip = true ∧ result = .error (.fault .unreadableText) ∧ t = s) ∨
      (s.cursor.contains .skip = false ∧
        ∃ q, Pass.run ⟨Task.program, s⟩ = (result, q) ∧ q.session = t) := by
  unfold pass at h
  split at h
  · next hskip =>
    cases h
    exact .inl ⟨hskip, rfl, rfl⟩
  · next hskip =>
    cases h
    exact .inr ⟨Bool.not_eq_true _ ▸ hskip, _, rfl, rfl⟩

theorem Session.pass_of_run {s : Session} {result : Except CompileError Unit} {q : Pass}
    (hskip : s.cursor.contains .skip = false) (hrun : Pass.run ⟨Task.program, s⟩ = (result, q)) :
    s.pass = (result, q.session) := by
  simp [pass, hskip, hrun]

theorem Session.tokens_of_pass {s t : Session} {result : Except CompileError Unit}
    (h : s.pass = (result, t)) : t.cursor.tokens = s.cursor.tokens := by
  obtain ⟨_, _, rfl⟩ | ⟨_, q, hrun, rfl⟩ := pass_cases h
  · rfl
  · exact Pass.tokens_run hrun

end PL0
