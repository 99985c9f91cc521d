import PL0.Session

/-!
The grammar of PL/0 as tasks. A task is a piece of a program that is still to be read, or an action
that is due between two pieces. Performing a task looks at no more than the next token; it either
fails, or reads at most one token and leaves smaller tasks to be done in its place.

  program    ::= block "."
  block      ::= [ "const" ident "=" number { "," ident "=" number } ";" ]
                 [ "var" ident { "," ident } ";" ] statement
  statement  ::= [ ident ":=" expression
                 | "begin" statement { ";" statement } "end"
                 | "if" condition "then" statement "fi"
                 | "while" condition "do" statement
                 | "read" ident
                 | "write" expression ]
  condition  ::= "even" expression | expression relation expression
  expression ::= term { ("+" | "-") term }
  term       ::= factor { ("*" | "/") factor }
  factor     ::= ident | number | "(" expression ")"
-/

namespace PL0

open Except (map_eq_ok_iff)
open Session (cursor_emit cursor_declare cursor_patch)

namespace Operation

/-- The comparison that a token kind stands for. -/
def ofRelation? : Kind → Option Operation
  | .eql => some eql
  | .neq => some neq
  | .lss => some lss
  | .leq => some leq
  | .gtr => some gtr
  | .geq => some geq
  | _ => none

/-- The operation between two terms that a token kind stands for. -/
def ofSign? : Kind → Option Operation
  | .plus => some add
  | .minus => some sub
  | _ => none

/-- The operation between two factors that a token kind stands for. -/
def ofFactorSign? : Kind → Option Operation
  | .times => some mul
  | .slash => some div
  | _ => none

theorem ne_endOfInput_of_eq_some {of? : Kind → Option Operation} (hend : of? .endOfInput = none)
    {kind : Kind} {operation : Operation} (h : of? kind = some operation) : kind ≠ .endOfInput := by
  rintro rfl
  rw [hend] at h
  cases h

end Operation

/-- The instruction that puts the value of a symbol on the stack. -/
def Symbol.fetch (symbol : Symbol) : Instruction :=
  match symbol.kind with
  | .const => .literal symbol.value
  | .var => .load symbol.location

inductive Task where
  /-- Emit an instruction. -/
  | emit (instruction : Instruction)
  /-- Read a token of the given kind; another token is the given fault. -/
  | expect (kind : Kind) (fault : Fault)
  | declare (symbol : Symbol)
  /-- Direct the branch with the given index to the next instruction. -/
  | patch (index : Nat)
  /-- The constant declarations, if there are any. -/
  | constantPart
  | constantName
  | constantValue (name : String)
  | moreConstants
  /-- The variable declarations, if there are any, and the frame for them. -/
  | variablePart
  /-- A variable that gets the given address. -/
  | variableName (address : Word)
  /-- More variables from the given address on, or the frame for those before it. -/
  | moreVariables (address : Word)
  | statement
  | moreStatements
  | readTarget
  /-- The input goes to the variable with the given name. -/
  | receive (name : String)
  /-- The branch over the statement behind `then`, and that statement. -/
  | thenPart
  /-- The branch out of the loop whose condition starts at the given address, and its statement. -/
  | loopPart (start : Word)
  | condition
  | relation
  | expression
  | moreTerms
  | term
  | moreFactors
  | factor
  /-- The end of the program. -/
  | finish
  deriving DecidableEq, Repr

namespace Task

/-- The first words of a frame are taken; variables come behind them. -/
def frameStart : Word := 3

/-- The tasks of a whole program. Its code starts with a jump to the second instruction. -/
def program : List Task :=
  [emit (.jump (Instruction.wordAddress 1)), constantPart, variablePart, statement, finish]

/-- Performs a statement, whose form is told by the next token. -/
def performStatement (s : Session) : Except CompileError (List Task × Session) :=
  match s.kind with
  | .ident =>
    (s.locationOf s.token.lexeme).map fun location =>
      ([expect .becomes .becomesExpected, expression, emit (.store location)], s.advance)
  | .readSym => .ok ([readTarget], s.advance)
  | .writeSym => .ok ([expression, emit (.system .write)], s.advance)
  | .beginSym => .ok ([statement, moreStatements], s.advance)
  | .ifSym => .ok ([condition, thenPart], s.advance)
  | .whileSym => .ok ([condition, loopPart s.code.nextAddress], s.advance)
  | _ => .ok ([], s)

def performFactor (s : Session) : Except CompileError (List Task × Session) :=
  match s.kind with
  | .ident =>
    match s.symbol s.token.lexeme with
    | .error e => .error e
    | .ok symbol => (s.emit symbol.fetch).map fun s => ([], s.advance)
  | .number => (s.emit (.literal s.token.value)).map fun s => ([], s.advance)
  | .lparen => .ok ([expression, expect .rparen .rightParenExpected], s.advance)
  | _ => .error (.fault .factorExpected)

/-- Performs a task: the tasks that take its place, and the session then. -/
def perform (task : Task) (s : Session) : Except CompileError (List Task × Session) :=
  match task with
  | emit instruction => (s.emit instruction).map ([], ·)
  | expect kind fault => if s.kind = kind then .ok ([], s.advance) else .error (.fault fault)
  | declare symbol => (s.declare symbol).map ([], ·)
  | patch index => (s.patch index).map ([], ·)
  | constantPart => if s.kind = .constSym then .ok ([constantName], s.advance) else .ok ([], s)
  | constantName =>
    if s.kind = .ident then
      .ok ([expect .eql .equalsExpected, constantValue s.token.lexeme], s.advance)
    else .error (.fault .identifierExpected)
  | constantValue name =>
    if s.kind = .number then
      .ok ([declare (.const name s.token.value), moreConstants], s.advance)
    else .error (.fault .numberExpected)
  | moreConstants =>
    if s.kind = .comma then .ok ([constantName], s.advance)
    else .ok ([expect .semicolon .semicolonExpected], s)
  | variablePart =>
    if s.kind = .varSym then .ok ([variableName frameStart], s.advance)
    else .ok ([emit (.reserve frameStart)], s)
  | variableName address =>
    if s.kind = .ident then
      .ok ([declare (.var s.token.lexeme address), moreVariables (address + 1)], s.advance)
    else .error (.fault .identifierExpected)
  | moreVariables address =>
    if s.kind = .comma then .ok ([variableName address], s.advance)
    else .ok ([expect .semicolon .semicolonExpected, emit (.reserve address)], s)
  | statement => performStatement s
  | moreStatements =>
    if s.kind = .semicolon then .ok ([statement, moreStatements], s.advance)
    else .ok ([expect .endSym .endExpected], s)
  | readTarget =>
    if s.kind = .ident then .ok ([receive s.token.lexeme], s.advance)
    else .error (.fault .identifierExpected)
  | receive name =>
    (s.locationOf name).map fun location => ([emit (.system .read), emit (.store location)], s)
  | thenPart =>
    (s.emit .hole).map fun t =>
      ([expect .thenSym .thenExpected, statement, patch s.code.size, expect .fiSym .fiExpected], t)
  | loopPart start =>
    (s.emit .hole).map fun t =>
      ([expect .doSym .doExpected, statement, emit (.jump start), patch s.code.size], t)
  | condition =>
    if s.kind = .evenSym then .ok ([expression, emit (.operate .even)], s.advance)
    else .ok ([expression, relation], s)
  | relation =>
    match Operation.ofRelation? s.kind with
    | some operation => .ok ([expression, emit (.operate operation)], s.advance)
    | none => .error (.fault .relationExpected)
  | expression => .ok ([term, moreTerms], s)
  | moreTerms =>
    match Operation.ofSign? s.kind with
    | some operation => .ok ([term, emit (.operate operation), moreTerms], s.advance)
    | none => .ok ([], s)
  | term => .ok ([factor, moreFactors], s)
  | moreFactors =>
    match Operation.ofFactorSign? s.kind with
    | some operation => .ok ([factor, emit (.operate operation), moreFactors], s.advance)
    | none => .ok ([], s)
  | factor => performFactor s
  | finish =>
    if s.kind = .period then
      (s.emit (.system .halt)).map fun s => ([], { s with symbols := s.symbols.markAll })
    else .error (.fault .periodExpected)

/-- How many tasks can come out of a task, itself included, before a token is read. -/
def weight : Task → Nat
  | moreConstants | variablePart | moreStatements => 2
  | moreVariables _ | receive _ | term => 3
  | thenPart | loopPart _ | expression => 5
  | condition => 7
  | emit _ | expect _ _ | declare _ | patch _ | constantPart | constantName | constantValue _
  | variableName _ | statement | readTarget | relation | moreTerms | moreFactors | factor
  | finish => 1

theorem weight_pos (task : Task) : 0 < task.weight := by
  cases task <;> simp [weight]

def totalWeight : List Task → Nat
  | [] => 0
  | task :: rest => task.weight + totalWeight rest

@[simp]
theorem totalWeight_append (tasks rest : List Task) :
    totalWeight (tasks ++ rest) = totalWeight tasks + totalWeight rest := by
  induction tasks with
  | nil => simp [totalWeight]
  | cons task tasks ih => simp [totalWeight, ih, Nat.add_assoc]

/-- What performing a task reads: nothing, and then the tasks left in its place weigh less; or the
next token, and then they may weigh more, but no more than 12. -/
inductive Reads (task : Task) (s : Session) (more : List Task) (t : Session) : Prop where
  | nothing (hcursor : t.cursor = s.cursor) (hweight : totalWeight more < task.weight)
  | token (hcursor : t.cursor = s.cursor.advance) (hkind : s.kind ≠ .endOfInput)
      (hweight : totalWeight more ≤ 12)
  | expected (hcursor : t.cursor = s.cursor.advance) (hmore : more = [])

theorem reads_performStatement {s t : Session} {more : List Task}
    (h : performStatement s = .ok (more, t)) : Reads statement s more t := by
  unfold performStatement at h
  split at h <;> rename_i hkind
  case h_1 =>
    obtain ⟨location, _, h⟩ := map_eq_ok_iff.1 h
    cases h
    exact .token rfl (by rw [hkind]; decide) (by simp [totalWeight, weight])
  case h_7 =>
    cases h
    exact .nothing rfl (by simp [totalWeight, weight])
  all_goals
    cases h
    exact .token rfl (by rw [hkind]; decide) (by simp [totalWeight, weight])

theorem reads_performFactor {s t : Session} {more : List Task}
    (h : performFactor s = .ok (more, t)) : Reads factor s more t := by
  unfold performFactor at h
  split at h <;> rename_i hkind
  case h_1 =>
    split at h
    · cases h
    · obtain ⟨u, hu, h⟩ := map_eq_ok_iff.1 h
      cases h
      exact .token (by simp [cursor_emit hu]) (by rw [hkind]; decide) (by simp [totalWeight])
  case h_2 =>
    obtain ⟨u, hu, h⟩ := map_eq_ok_iff.1 h
    cases h
    exact .token (by simp [cursor_emit hu]) (by rw [hkind]; decide) (by simp [totalWeight])
  case h_3 =>
    cases h
    exact .token rfl (by rw [hkind]; decide) (by simp [totalWeight, weight])
  case h_4 =>
    cases h

theorem reads_perform {task : Task} {s t : Session} {more : List Task}
    (h : task.perform s = .ok (more, t)) : Reads task s more t := by
  cases task with
  | statement => exact reads_performStatement h
  | factor => exact reads_performFactor h
  | emit =>
    obtain ⟨u, hu, h⟩ := map_eq_ok_iff.1 h
    cases h
    exact .nothing (cursor_emit hu) (by simp [totalWeight, weight])
  | declare =>
    obtain ⟨u, hu, h⟩ := map_eq_ok_iff.1 h
    cases h
    exact .nothing (cursor_declare hu) (by simp [totalWeight, weight])
  | patch =>
    obtain ⟨u, hu, h⟩ := map_eq_ok_iff.1 h
    cases h
    exact .nothing (cursor_patch hu) (by simp [totalWeight, weight])
  | expect =>
    simp only [perform] at h
    split at h <;> cases h
    exact .expected rfl rfl
  | receive =>
    obtain ⟨u, hu, h⟩ := map_eq_ok_iff.1 h
    cases h
    exact .nothing rfl (by simp [totalWeight, weight])
  | thenPart | loopPart =>
    obtain ⟨u, hu, h⟩ := map_eq_ok_iff.1 h
    cases h
    exact .nothing (cursor_emit hu) (by simp [totalWeight, weight])
  | expression | term =>
    cases h
    exact .nothing rfl (by decide)
  | relation =>
    simp only [perform] at h
    split at h <;> cases h
    exact .token rfl (Operation.ne_endOfInput_of_eq_some rfl ‹_›) (by simp [totalWeight, weight])
  | moreTerms =>
    simp only [perform] at h
    split at h <;> cases h
    · exact .token rfl (Operation.ne_endOfInput_of_eq_some rfl ‹_›) (by simp [totalWeight, weight])
    · exact .nothing rfl (by simp [totalWeight, weight])
  | moreFactors =>
    simp only [perform] at h
    split at h <;> cases h
    · exact .token rfl (Operation.ne_endOfInput_of_eq_some rfl ‹_›) (by simp [totalWeight, weight])
    · exact .nothing rfl (by simp [totalWeight, weight])
  | finish =>
    simp only [perform] at h
    split at h
    · obtain ⟨u, hu, h⟩ := map_eq_ok_iff.1 h
      cases h
      exact .nothing (show u.cursor = s.cursor from cursor_emit hu) (by simp [totalWeight, weight])
    · cases h
  | constantName | constantValue | variableName | readTarget =>
    simp only [perform] at h
    split at h <;> cases h
    exact .token rfl (by rw [‹s.kind = _›]; decide) (by simp [totalWeight, weight])
  | constantPart | moreConstants | variablePart | moreVariables | moreStatements | condition =>
    simp only [perform] at h
    split at h <;> cases h
    · exact .token rfl (by rw [‹s.kind = _›]; decide) (by simp [totalWeight, weight])
    · exact .nothing rfl (by simp [totalWeight, weight])

end Task
end PL0
