import PL0.Proofs.Compilation
import PL0.Proofs.Mentions
import PL0.Proofs.Move

/-!
This module contains the proof that the fault of the leftmost occurrence with one is reported, where
the grammar is kept to and the limits suffice. The tasks check some names before they are passed and
others behind a further token, but no other check lies in between: by induction over the trees, what
stands to the left of the occurrence can be done, and then the fault is all that is left.
-/

namespace PL0

open Token (firstKind)
open Declarations (partSpelling moreSpelling constantSpelling variableSpelling constantSymbols
  variableSymbols)

/-- Doing the tasks comes to the fault, whatever stands behind them. -/
def Faults (tasks : List Task) (s : Session) (fault : Fault) : Prop :=
  ∀ rest, (Pass.run ⟨tasks ++ rest, s⟩).1 = .error (.fault fault)

namespace Faults

variable {task : Task} {tasks more : List Task} {s u : Session} {fault : Fault}

theorem of_perform (h : task.perform s = .error (.fault fault)) : Faults [task] s fault := by
  intro rest
  exact congrArg Prod.fst (Pass.run_eq_of_failed (Pass.step_of_error h))

theorem of_becomes (h : Becomes tasks s more u) (hmore : Faults more u fault) :
    Faults tasks s fault := by
  intro rest
  rw [h]
  apply hmore

theorem step (h : task.perform s = .ok (more, u)) (hmore : Faults more u fault) :
    Faults [task] s fault :=
  of_becomes (.of_perform h) hmore

theorem append (h : Faults tasks s fault) (behind : List Task) :
    Faults (tasks ++ behind) s fault := by
  intro rest
  rw [List.append_assoc]
  apply h

theorem behind (h : Performs tasks s u) (hmore : Faults more u fault) :
    Faults (tasks ++ more) s fault :=
  of_becomes (h.becomes.append more) hmore

end Faults

namespace Session.Ready

variable {s : Session} {scope : Scope} {tokens : List Token} {room : Nat} {name : String}

theorem find?_eq_none (h : s.Ready scope tokens room) (hnone : scope name = none) :
    s.symbols.find? name = none := by
  rw [← h.scope] at hnone
  exact Option.map_eq_none_iff.1 hnone

theorem locationOf_eq_error {fault : Fault} (h : s.Ready scope tokens room)
    (hfault : scope.fault? (.assigned name) = some fault) :
    s.locationOf name = .error (.fault fault) := by
  rw [Task.locationOf_eq_variable, h.scope]
  cases hscope : scope name with
  | none =>
    simp only [Scope.fault?, hscope, Option.some.injEq] at hfault
    simp only [Scope.variable, hscope, ← hfault]
    rfl
  | some binding =>
    cases binding with
    | const value =>
      simp only [Scope.fault?, hscope, Option.some.injEq] at hfault
      simp only [Scope.variable, hscope, ← hfault]
      rfl
    | var location => simp [Scope.fault?, hscope] at hfault

end Session.Ready

namespace Expression

theorem faults {level : Level} (e : Expression level) {s : Session} {scope : Scope}
    {rest : List Token} {room : Nat} (h : s.Ready scope (e.spelling ++ rest) (e.size + room))
    (hpauses : level.Pauses (firstKind rest)) (hscoped : ¬ e.Scoped scope) :
    Faults [level.task] s .undeclaredIdentifier := by
  induction e generalizing s rest room with
  | number value => exact absurd (scoped_number scope value) hscoped
  | ident name =>
    have hkind : s.kind = .ident := h.kind_eq
    have hnone : scope name = none := by
      rw [← Option.not_isSome_iff_eq_none, Option.isSome_iff_exists]
      exact fun hsome => hscoped (scoped_ident_iff.2 hsome)
    apply Faults.of_perform
    simp only [Level.task, Task.perform, Task.performFactor, hkind, h.lexeme_eq, Session.symbol,
      h.find?_eq_none hnone]
  | parens inner ih =>
    have hstop : Level.expression.Stops .rparen := by decide
    have hkind : s.kind = .lparen := h.kind_eq
    rw [spelling, List.cons_append, List.append_assoc] at h
    have hinner := ih h.advance hstop.pauses hscoped
    apply Faults.step _ (hinner.append [.expect .rparen .rightParenExpected])
    rw [Level.task, Task.perform, Task.performFactor, hkind]
    rfl
  | @single tier operand ih =>
    have hstop : tier.operand.Stops (firstKind rest) := hpauses
    have hoperand := ih h hstop.pauses hscoped
    exact .step (Task.perform_chain tier s) (hoperand.append [tier.more])
  | @binary tier left operator right ihl ihr =>
    have hstop : tier.operand.Stops (firstKind rest) := hpauses
    have hpause := Level.stops_operand_operator operator
    rw [size, spelling, List.append_assoc, Nat.add_assoc, Nat.add_assoc] at h
    by_cases hleft : left.Scoped scope
    · have hright : ¬ right.Scoped scope := by
        intro hright
        exact hscoped (scoped_binary_iff.2 ⟨hleft, hright⟩)
      obtain ⟨u, hread, hbecomes⟩ := left.exists_translates h hpause hleft
      have hu := h.translates (length_code hleft) hread
      have hoperand := ihr hu.advance hstop.pauses hright
      apply Faults.of_becomes hbecomes
      apply Faults.step (Task.perform_more_operator operator hu.kind_eq)
      exact hoperand.append [.emit (.operate operator.operation), tier.more]
    · exact ihl h hpause hleft

end Expression

theorem Condition.faults (c : Condition) {s : Session} {scope : Scope} {rest : List Token}
    {room : Nat} (h : s.Ready scope (c.spelling ++ rest) (c.size + room))
    (hstop : Level.expression.Stops (firstKind rest)) (hscoped : ¬ c.Scoped scope) :
    Faults [.condition] s .undeclaredIdentifier := by
  cases c with
  | even operand =>
    rw [spelling, size, List.cons_append, Nat.add_assoc] at h
    have hoperand := operand.faults h.advance hstop.pauses hscoped
    exact .step (if_pos h.kind_eq) (hoperand.append [.emit (.operate .even)])
  | compare left comparison right =>
    have hkind : s.kind ≠ .evenSym := by
      rw [h.kind_eq, spelling, List.append_assoc]
      exact left.firstKind_spelling_ne_evenSym _
    rw [spelling, size, List.append_assoc, Nat.add_assoc, Nat.add_assoc] at h
    have hperform : Task.condition.perform s = .ok ([.expression, .relation], s) := if_neg hkind
    apply Faults.step hperform
    by_cases hleft : left.Scoped scope
    · have hright : ¬ right.Scoped scope :=
        fun hright => hscoped (scoped_compare_iff.2 ⟨hleft, hright⟩)
      obtain ⟨u, hread, hu⟩ := left.exists_completes h comparison.stops hleft
      have hoperand := right.faults hu.advance hstop.pauses hright
      apply Faults.behind hread.performs
      apply Faults.step (Task.perform_relation comparison hu.kind_eq)
      exact hoperand.append [.emit (.operate comparison.operation)]
    · have hoperand := left.faults h comparison.stops.pauses hleft
      exact hoperand.append [.relation]

theorem Scope.exists_of_findSome?_used {scope : Scope} {names : List String} {fault : Fault}
    (h : (names.map Mention.used).findSome? scope.fault? = some fault) :
    (¬ ∀ name ∈ names, (scope name).isSome) ∧ fault = .undeclaredIdentifier := by
  obtain ⟨mention, hmem, hfault⟩ := List.exists_of_findSome?_eq_some h
  obtain ⟨name, hname, rfl⟩ := List.mem_map.1 hmem
  rw [fault?] at hfault
  split at hfault
  · cases hfault
  · next hnone =>
    cases hfault
    exact ⟨fun hall => hnone (hall name hname), rfl⟩

theorem Scope.isSome_of_findSome?_used {scope : Scope} {names : List String}
    (h : (names.map Mention.used).findSome? scope.fault? = none) :
    ∀ name ∈ names, (scope name).isSome := by
  intro name hname
  rw [List.findSome?_eq_none_iff] at h
  exact fault?_used_eq_none_iff.1 (h _ (List.mem_map_of_mem hname))

namespace Statement

/-- Wherever the statement is seen as a whole, its leftmost fault is come to. -/
def Faulty {extent : Extent} (scope : Scope) (statement : Statement extent) : Prop :=
  ∀ {fault : Fault} {s : Session} {rest : List Token} {room : Nat},
    statement.mentions.findSome? scope.fault? = some fault →
      s.Ready scope (extent.closed statement.spelling ++ rest) (statement.size + room) →
        extent.Leaves (firstKind rest) → Faults extent.tasks s fault

variable {scope : Scope}

theorem faulty_assign (name : String) (value : Expression .expression) :
    (assign name value).Faulty scope := by
  intro fault s rest room hfault h hleaves
  simp only [Extent.closed, spelling, size, List.cons_append, Nat.add_assoc] at h
  have hkind : s.kind = .ident := h.kind_eq
  rw [mentions, List.findSome?_cons] at hfault
  split at hfault
  · next hname =>
    cases hfault
    apply Faults.of_perform
    simp only [Task.perform, Task.performStatement, hkind, h.lexeme_eq, h.locationOf_eq_error hname]
    rfl
  · next hname =>
    obtain ⟨location, hlocation⟩ := Scope.fault?_assigned_eq_none_iff.1 hname
    obtain ⟨hvalue, rfl⟩ := Scope.exists_of_findSome?_used hfault
    have hstop := (Extent.stops_of_ends hleaves).pauses
    have hbecomes := Completes.expect .becomesExpected h.advance (by decide)
    have hread := Faults.behind hbecomes.performs (value.faults h.advance.advance hstop hvalue)
    apply Faults.step _ (hread.append [.emit (.store location)])
    simp only [Task.perform, Task.performStatement, hkind, h.lexeme_eq, h.locationOf_eq hlocation]
    rfl

theorem faulty_read (name : String) : (read name).Faulty scope := by
  intro fault s rest room hfault h hleaves
  simp only [Extent.closed, spelling, size, List.cons_append] at h
  have hname : scope.fault? (.assigned name) = some fault := by
    rw [mentions, List.findSome?_singleton] at hfault
    exact hfault
  have hreceive : Faults [.receive name] s.advance.advance fault := by
    apply Faults.of_perform
    rw [Task.perform, h.advance.advance.locationOf_eq_error hname]
    rfl
  have htarget : Faults [.readTarget] s.advance fault := by
    have hkind : s.advance.kind = .ident := h.advance.kind_eq
    apply Faults.step _ hreceive
    rw [Task.perform, if_pos hkind, h.advance.lexeme_eq]
  apply Faults.step _ htarget
  rw [Task.perform, Task.performStatement, h.kind_eq]
  rfl

theorem faulty_write (value : Expression .expression) : (write value).Faulty scope := by
  intro fault s rest room hfault h hleaves
  simp only [Extent.closed, spelling, size, List.cons_append, Nat.add_assoc] at h
  obtain ⟨hvalue, rfl⟩ := Scope.exists_of_findSome?_used hfault
  have hread := value.faults h.advance (Extent.stops_of_ends hleaves).pauses hvalue
  apply Faults.step _ (hread.append [.emit (.system .write)])
  rw [Task.perform, Task.performStatement, h.kind_eq]
  rfl

theorem faulty_compound {body : Statement .list} (hbody : body.Faulty scope) :
    (compound body).Faulty scope := by
  intro fault s rest room hfault h hleaves
  simp only [Extent.closed, spelling, size, List.cons_append] at h
  apply Faults.step _ (hbody hfault h.advance trivial)
  rw [Task.perform, Task.performStatement, h.kind_eq]
  rfl

theorem faults_thenPart {body : Statement .one} (hbody : body.Faulty scope) {fault : Fault}
    (hfault : body.mentions.findSome? scope.fault? = some fault) {s : Session} {rest : List Token}
    {room : Nat}
    (h : s.Ready scope (.plain .thenSym :: (body.spelling ++ .plain .fiSym :: rest))
      (1 + (body.size + room))) :
    Faults [.thenPart] s fault := by
  obtain ⟨v, hhole, hv, _⟩ := h.exists_hole
  have hthen := Completes.expect .thenExpected hv (by decide)
  have hread := Faults.behind hthen.performs (hbody hfault hv.advance (.inr (.inr (.inl rfl))))
  apply Faults.step _ (hread.append [.patch s.code.size, .expect .fiSym .fiExpected])
  rw [Task.perform, hhole]
  rfl

theorem faults_loopPart {body : Statement .one} (hbody : body.Faulty scope) {fault : Fault}
    (hfault : body.mentions.findSome? scope.fault? = some fault) (start : Word) {s : Session}
    {rest : List Token} {room : Nat}
    (h : s.Ready scope (.plain .doSym :: (body.spelling ++ rest)) (1 + (body.size + room)))
    (hends : Extent.one.Ends (firstKind rest)) :
    Faults [.loopPart start] s fault := by
  obtain ⟨v, hhole, hv, _⟩ := h.exists_hole
  have hdo := Completes.expect .doExpected hv (by decide)
  have hread := Faults.behind hdo.performs (hbody hfault hv.advance hends)
  apply Faults.step _ (hread.append [.emit (.jump start), .patch s.code.size])
  rw [Task.perform, hhole]
  rfl

theorem faulty_ifThen (condition : Condition) {body : Statement .one} (hbody : body.Faulty scope) :
    (ifThen condition body).Faulty scope := by
  intro fault s rest room hfault h hleaves
  simp only [Extent.closed, spelling, size, List.cons_append, List.append_assoc, List.nil_append,
    Nat.add_assoc] at h
  have hstop : Level.expression.Stops .thenSym := by decide
  have hperform : Task.statement.perform s = .ok ([.condition, .thenPart], s.advance) := by
    rw [Task.perform, Task.performStatement, h.kind_eq]
    rfl
  rw [mentions, List.findSome?_append, Option.or_eq_some_iff] at hfault
  obtain hfault | ⟨hnone, hfault⟩ := hfault
  · obtain ⟨hscoped, rfl⟩ := Scope.exists_of_findSome?_used hfault
    exact .step hperform ((condition.faults h.advance hstop hscoped).append [.thenPart])
  · have hscoped := Scope.isSome_of_findSome?_used hnone
    obtain ⟨u, hcondition, hu⟩ := condition.exists_completes h.advance hstop hscoped
    exact .step hperform (.behind hcondition.performs (faults_thenPart hbody hfault hu))

theorem faulty_whileDo (condition : Condition) {body : Statement .one} (hbody : body.Faulty scope) :
    (whileDo condition body).Faulty scope := by
  intro fault s rest room hfault h hleaves
  have hroom : condition.size + body.size + 2 + room =
      condition.size + (1 + (body.size + (1 + room))) := by omega
  simp only [Extent.closed, spelling, size, List.cons_append, List.append_assoc, hroom] at h
  have hstop : Level.expression.Stops .doSym := by decide
  have hperform : Task.statement.perform s =
      .ok ([.condition, .loopPart s.code.nextAddress], s.advance) := by
    rw [Task.perform, Task.performStatement, h.kind_eq]
    rfl
  rw [mentions, List.findSome?_append, Option.or_eq_some_iff] at hfault
  obtain hfault | ⟨hnone, hfault⟩ := hfault
  · obtain ⟨hscoped, rfl⟩ := Scope.exists_of_findSome?_used hfault
    exact .step hperform ((condition.faults h.advance hstop hscoped).append [.loopPart _])
  · have hscoped := Scope.isSome_of_findSome?_used hnone
    obtain ⟨u, hcondition, hu⟩ := condition.exists_completes h.advance hstop hscoped
    exact .step hperform (.behind hcondition.performs (faults_loopPart hbody hfault _ hu hleaves))

theorem faulty_last {statement : Statement .one} (hstatement : statement.Faulty scope) :
    (last statement).Faulty scope := by
  intro fault s rest room hfault h _
  simp only [Extent.closed, spelling, size, List.append_assoc] at h
  exact (hstatement hfault h (.inr (.inl rfl))).append [.moreStatements]

theorem faulty_followed {first : Statement .one} {rest : Statement .list}
    (hfirst : first.Faulty scope) (hrest : rest.Faulty scope) :
    (followed first rest).Faulty scope := by
  intro fault s behind room hfault h _
  have hspelling : Extent.list.closed (followed first rest).spelling =
      first.spelling ++ .plain .semicolon :: Extent.list.closed rest.spelling := by
    simp [Extent.closed, spelling]
  rw [hspelling, List.append_assoc, List.cons_append, size, Nat.add_assoc] at h
  rw [mentions, List.findSome?_append, Option.or_eq_some_iff] at hfault
  obtain hfault | ⟨hnone, hfault⟩ := hfault
  · exact (hfirst hfault h (.inl rfl)).append [.moreStatements]
  · have hscoped := scoped_of_findSome? hnone
    obtain ⟨u, hread⟩ := readable hscoped h (.inl rfl)
    have hu := h.translates (length_code hscoped _) hread.translates
    have hmore : Faults [.moreStatements] u fault :=
      .step (if_pos hu.kind_eq) (hrest hfault hu.advance trivial)
    exact .behind hread.performs hmore

theorem faulty {extent : Extent} (statement : Statement extent) : statement.Faulty scope := by
  induction statement with
  | empty =>
    intro fault s rest room hfault
    cases hfault
  | assign name value => exact faulty_assign name value
  | read name => exact faulty_read name
  | write value => exact faulty_write value
  | compound body ih => exact faulty_compound ih
  | ifThen condition body ih => exact faulty_ifThen condition ih
  | whileDo condition body ih => exact faulty_whileDo condition ih
  | last statement ih => exact faulty_last ih
  | followed first rest ihf ihr => exact faulty_followed ihf ihr

end Statement

/-- There is room for the symbols, but they cannot all be declared. -/
structure Clashes (symbols : List Symbol) (table : SymbolTable) : Prop where
  room : table.size + symbols.length ≤ table.capacity
  undeclared : ∀ after, ¬ Declared symbols table after

namespace Clashes

variable {symbol : Symbol} {symbols rest : List Symbol} {table : SymbolTable}

theorem declare_cases (h : Clashes (symbol :: rest) table) :
    table.declare symbol = .error (.fault .duplicateSymbol) ∨
      ∃ id next, table.declare symbol = .ok (id, next) ∧ Clashes rest next := by
  have hroom := h.room
  rw [List.length_cons] at hroom
  cases hdeclare : table.declare symbol with
  | error error =>
    left
    unfold SymbolTable.declare at hdeclare
    split at hdeclare
    · rw [← hdeclare]
    · rw [if_neg (by omega)] at hdeclare
      cases hdeclare
  | ok result =>
    obtain ⟨id, next⟩ := result
    obtain ⟨_, _, _, rfl⟩ := SymbolTable.declare_eq_ok_iff.1 hdeclare
    right
    refine ⟨id, _, rfl, ?_, ?_⟩
    · simp only [SymbolTable.size, List.length_cons] at hroom ⊢
      omega
    · intro after hrest
      exact h.undeclared after ⟨id, _, hdeclare, hrest⟩

theorem append_cases (h : Clashes (symbols ++ rest) table) :
    Clashes symbols table ∨ ∃ middle, Declared symbols table middle ∧ Clashes rest middle := by
  induction symbols generalizing table with
  | nil => exact .inr ⟨table, rfl, h⟩
  | cons symbol symbols ih =>
    have hroom := h.room
    rw [List.cons_append, List.length_cons, List.length_append] at hroom
    have hleft : table.size + (symbol :: symbols).length ≤ table.capacity := by
      rw [List.length_cons]
      omega
    obtain herror | ⟨id, next, hdeclare, hclash⟩ := declare_cases h
    · left
      refine ⟨hleft, ?_⟩
      rintro after ⟨id, next, hdeclare, _⟩
      rw [herror] at hdeclare
      cases hdeclare
    · obtain hsymbols | ⟨middle, hsymbols, hrest⟩ := ih hclash
      · left
        refine ⟨hleft, ?_⟩
        rintro after ⟨id', next', hdeclare', hdeclared⟩
        rw [hdeclare] at hdeclare'
        cases hdeclare'
        exact hsymbols.undeclared after hdeclared
      · exact .inr ⟨middle, ⟨id, next, hdeclare, hsymbols⟩, hrest⟩

end Clashes

theorem Clashes.faults {symbol : Symbol} {rest : List Symbol} {s : Session} {scope : Scope}
    {tokens : List Token} {room : Nat} {more : Task} (h : s.Ready scope tokens room)
    (hclash : Clashes (symbol :: rest) s.symbols)
    (hmore : ∀ {u : Session} {scope : Scope}, u.Ready scope tokens room → Clashes rest u.symbols →
      Faults [more] u .duplicateSymbol) :
    Faults [.declare symbol, more] s .duplicateSymbol := by
  -- The first symbol cannot be declared, or else there is a clash in the rest.
  obtain herror | ⟨id, next, hdeclare, hrest⟩ := hclash.declare_cases
  · have hfirst : Faults [.declare symbol] s .duplicateSymbol := by
      apply Faults.of_perform
      rw [Task.perform, Session.declare, herror]
      rfl
    exact hfirst.append [more]
  · obtain ⟨u, hsymbol, hu, rfl⟩ := Completes.declare h hdeclare
    exact .behind hsymbol.performs (hmore hu hrest)

/-- Further constants that cannot all be declared come to a fault wherever they are seen. -/
def ClashingConstants (consts : List (String × Word)) : Prop :=
  ∀ {s : Session} {scope : Scope} {tokens : List Token} {room : Nat},
    s.Ready scope (moreSpelling constantSpelling consts ++ tokens) room →
      Clashes (constantSymbols false consts) s.symbols → Faults [.moreConstants] s .duplicateSymbol

theorem faults_constantName {name : String} {value : Word} {rest : List (String × Word)}
    (hrest : ClashingConstants rest) {s : Session} {scope : Scope} {tokens : List Token}
    {room : Nat}
    (h : s.Ready scope (.ident name :: .plain .eql :: .number value ::
      (moreSpelling constantSpelling rest ++ tokens)) room)
    (hclash : Clashes (constantSymbols false ((name, value) :: rest)) s.symbols) :
    Faults [.constantName] s .duplicateSymbol := by
  have hname : s.kind = .ident := h.kind_eq
  have hnumber : s.advance.advance.kind = .number := h.advance.advance.kind_eq
  have hsymbol : Faults [.declare (.const name value), .moreConstants] s.advance.advance.advance
      .duplicateSymbol :=
    Clashes.faults h.advance.advance.advance hclash hrest
  have hvalue : Faults [.constantValue name] s.advance.advance .duplicateSymbol := by
    apply Faults.step _ hsymbol
    rw [Task.perform, if_pos hnumber, h.advance.advance.value_eq]
  have heql := Completes.expect .equalsExpected h.advance (by decide)
  apply Faults.step _ (.behind heql.performs hvalue)
  rw [Task.perform, if_pos hname, h.lexeme_eq]
  rfl

theorem clashingConstants (consts : List (String × Word)) : ClashingConstants consts := by
  induction consts with
  | nil =>
    intro s scope tokens room _ hclash
    exact absurd rfl (hclash.undeclared _)
  | cons constant rest ih =>
    intro s scope tokens room h hclash
    exact .step (if_pos h.kind_eq) (faults_constantName ih h.advance hclash)

theorem faults_constantPart {consts : List (String × Word)} {s : Session} {scope : Scope}
    {tokens : List Token} {room : Nat}
    (h : s.Ready scope (partSpelling .constSym constantSpelling consts ++ tokens) room)
    (hclash : Clashes (constantSymbols false consts) s.symbols) :
    Faults [.constantPart] s .duplicateSymbol := by
  cases consts with
  | nil => exact absurd rfl (hclash.undeclared _)
  | cons constant rest =>
    exact .step (if_pos h.kind_eq) (faults_constantName (clashingConstants rest) h.advance hclash)

/-- Further variables that cannot all be declared come to a fault wherever they are seen. -/
def ClashingVariables (vars : List String) : Prop :=
  ∀ (start : Nat) {s : Session} {scope : Scope} {tokens : List Token} {room : Nat},
    s.Ready scope (moreSpelling variableSpelling vars ++ tokens) room →
      Clashes (variableSymbols false start vars) s.symbols →
        Faults [.moreVariables (Int32.ofNat start)] s .duplicateSymbol

theorem faults_variableName {name : String} {rest : List String} (hrest : ClashingVariables rest)
    (start : Nat) {s : Session} {scope : Scope} {tokens : List Token} {room : Nat}
    (h : s.Ready scope (.ident name :: (moreSpelling variableSpelling rest ++ tokens)) room)
    (hclash : Clashes (variableSymbols false start (name :: rest)) s.symbols) :
    Faults [.variableName (Int32.ofNat start)] s .duplicateSymbol := by
  have hname : s.kind = .ident := h.kind_eq
  rw [Declarations.variableSymbols_cons] at hclash
  have hsymbol : Faults [.declare (.var name (Int32.ofNat start)),
      .moreVariables (Int32.ofNat (start + 1))] s.advance .duplicateSymbol :=
    Clashes.faults h.advance hclash (hrest (start + 1))
  apply Faults.step _ hsymbol
  rw [Task.perform, if_pos hname, h.lexeme_eq, Int32.ofNat_add]
  rfl

theorem clashingVariables (vars : List String) : ClashingVariables vars := by
  induction vars with
  | nil =>
    intro start s scope tokens room _ hclash
    exact absurd rfl (hclash.undeclared _)
  | cons name rest ih =>
    intro start s scope tokens room h hclash
    exact .step (if_pos h.kind_eq) (faults_variableName ih start h.advance hclash)

theorem faults_variablePart {vars : List String} {s : Session} {scope : Scope}
    {tokens : List Token} {room : Nat}
    (h : s.Ready scope (partSpelling .varSym variableSpelling vars ++ tokens) room)
    (hclash : Clashes (variableSymbols false 3 vars) s.symbols) :
    Faults [.variablePart] s .duplicateSymbol := by
  cases vars with
  | nil => exact absurd rfl (hclash.undeclared _)
  | cons name rest =>
    exact .step (if_pos h.kind_eq) (faults_variableName (clashingVariables rest) 3 h.advance hclash)

theorem Faults.compile_eq {tokens : List Token} {limits : Limits} {fault : Fault}
    (h : Faults Task.program (.initial tokens limits) fault) (hne : tokens ≠ [])
    (hlength : tokens.length ≤ limits.maxTokens) (hskip : ∀ token ∈ tokens, token.kind ≠ .skip) :
    (compile tokens limits).result = .error (.fault fault) := by
  have hcursor := Cursor.ofTokens_eq_ok_iff.2 ⟨hne, hlength, rfl⟩
  have hresult := h []
  rcases hrun : Pass.run ⟨Task.program, .initial tokens limits⟩ with ⟨result, q⟩
  rw [List.append_nil, hrun] at hresult
  cases hresult
  rw [compile_of_pass hcursor (Session.pass_of_run (Session.contains_skip_initial.2 hskip) hrun)]
  rfl

namespace Program

variable {program : Program} {tokens : List Token} {limits : Limits}

theorem faults_of_not_nodup (hspelled : program.SpelledBy (Token.throughPeriod tokens))
    (hcode : program.body.size + 3 ≤ limits.maxCodeLength)
    (hsymbols : program.declarations.names.length ≤ limits.maxSymbols)
    (h : ¬ program.declarations.names.Nodup) :
    Faults Task.program (.initial tokens limits) .duplicateSymbol := by
  obtain ⟨⟨consts, vars⟩, body⟩ := program
  obtain ⟨s, rest, hjump, hempty, hperiod, hs⟩ := hspelled.exists_started hcode
  have hclash : Clashes (Declarations.symbols ⟨consts, vars⟩ false) s.symbols := by
    rw [hempty]
    constructor
    · rw [← List.length_map (·.name), Declarations.map_name_symbols]
      simpa [SymbolTable.size, SymbolTable.empty] using hsymbols
    · intro after hdeclared
      exact h (declared_empty_iff.1 hdeclared).1
  apply Faults.behind hjump
  obtain hconsts | ⟨middle, hconsts, hvars⟩ := hclash.append_cases
  · exact (faults_constantPart hs hconsts).append [.variablePart, .statement, .finish]
  · obtain ⟨u, hread, rfl⟩ :=
      exists_constantPart consts hs (firstKind_variables_ne vars body hperiod) hconsts
    have hu := hs.declares (Nat.zero_add _) hread.translates
    have hvariables := (faults_variablePart hu hvars).append [.statement, .finish]
    exact .behind hread.performs hvariables

theorem faults_of_findSome? (hspelled : program.SpelledBy (Token.throughPeriod tokens))
    (hcode : program.body.size + 3 ≤ limits.maxCodeLength)
    (hsymbols : program.declarations.names.length ≤ limits.maxSymbols)
    (h : program.declarations.names.Nodup) {fault : Fault}
    (hfault : program.body.mentions.findSome? program.declarations.scope.fault? = some fault) :
    Faults Task.program (.initial tokens limits) fault := by
  obtain ⟨⟨consts, vars⟩, body⟩ := program
  obtain ⟨s, rest, hjump, hempty, hperiod, hs⟩ := hspelled.exists_started hcode
  obtain ⟨t, hdeclared, ht⟩ := exists_declared hempty hperiod hs h hsymbols
  have hends : Extent.one.Ends (firstKind rest) := .inr (.inr (.inr hperiod))
  have hbody := body.faulty hfault ht hends
  exact .behind (hjump.append hdeclared) (hbody.append [.finish])

end Program

/--
With limits that suffice, the tokens of a program compile if no occurrence of a name is faulty, and
otherwise the fault of the leftmost faulty one is reported. The occurrences are the names in the
tokens up to the first period, one by one.
-/
theorem compile_eq_leftmost_fault {program : Program} {tokens : List Token} {limits : Limits}
    (hskip : ∀ token ∈ tokens, token.kind ≠ .skip)
    (hspelled : program.SpelledBy (Token.throughPeriod tokens))
    (htokens : tokens.length ≤ limits.maxTokens) (hcode : tokens.length + 2 ≤ limits.maxCodeLength)
    (hsymbols : tokens.length / 2 ≤ limits.maxSymbols) :
    program.mentions.map (·.name) = Token.names (Token.throughPeriod tokens) ∧
      ((∀ i, program.faultAt i = none) → ∃ p, (compile tokens limits).result = .ok p) ∧
        ∀ i fault, program.faultAt i = some fault → (∀ j < i, program.faultAt j = none) →
          (compile tokens limits).result = .error (.fault fault) := by
  have hlength := hspelled.length_spelling_le
  refine ⟨Program.map_name_mentions hspelled, ?_, ?_⟩
  · intro hnone
    have hscoped := Program.wellScoped_of_faultAt hnone
    have hfits := hscoped.fits hlength hsymbols hcode
    exact ⟨_, compile_eq_ok_iff_program.2 ⟨htokens, hskip, program, hspelled, hscoped, hfits, rfl⟩⟩
  · intro i fault hfault hfirst
    have hroom : program.body.size + 3 ≤ limits.maxCodeLength := by
      have hsize := program.body.size_le
      rw [Program.spelling, List.length_append, List.length_append, List.length_singleton]
        at hlength
      omega
    have hnames : program.declarations.names.length ≤ limits.maxSymbols := by
      have htwo := program.declarations.two_mul_length_names_le
      rw [Program.spelling, List.length_append] at hlength
      omega
    have hne : tokens ≠ [] := by
      rintro rfl
      simp [Program.spelling] at hlength
    obtain ⟨hduplicate, rfl⟩ | ⟨hnodup, hbody⟩ := Program.leftmost_cases hfault hfirst
    · have hfaults := Program.faults_of_not_nodup hspelled hroom hnames hduplicate
      exact hfaults.compile_eq hne htokens hskip
    · have hfaults := Program.faults_of_findSome? hspelled hroom hnames hnodup hbody
      exact hfaults.compile_eq hne htokens hskip

/-- `const c = 1; var x; begin x := x; if even x then c := y fi end.` -/
def Program.misused : Program where
  declarations := ⟨[("c", 1)], ["x"]⟩
  body :=
    .compound (.followed (.assign "x" (.single (.single (.ident "x"))))
      (.last (.ifThen (.even (.single (.single (.ident "x"))))
        (.assign "c" (.single (.single (.ident "y")))))))

theorem compile_misused_eq_leftmost_fault :
    Program.misused.faultAt 5 = some .assignmentToConstant ∧
      Program.misused.faultAt 6 = some .undeclaredIdentifier ∧
        (compile Program.misused.spelling ⟨11, 25, 23⟩).result =
          .error (.fault .assignmentToConstant) := by
  refine ⟨by decide, by decide, ?_⟩
  have hfault : Program.misused.faultAt 5 = some .assignmentToConstant := by decide
  have hfirst : ∀ j < 5, Program.misused.faultAt j = none := by decide
  apply (compile_eq_leftmost_fault ?_ ?_ ?_ ?_ ?_).2.2 5 _ hfault hfirst
  all_goals decide

end PL0
