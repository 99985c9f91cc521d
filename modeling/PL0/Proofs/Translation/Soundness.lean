import PL0.Proofs.Translation.Basic

/-!
This module contains the proof that a pass accepts programs only. `Task.Done` says for each task
what a session has gone through when the task is done, and one step lemma shows that performing a
task keeps to it. So the tokens that a successful pass has read spell a program whose names are
properly used, and the code is the code of that program.
-/

namespace PL0

open Except (map_eq_ok_iff)
open Declarations (partSpelling moreSpelling constantSpelling variableSpelling constantSymbols
  variableSymbols)

def Statement.moreSpelling : Option (Statement .list) → List Token
  | none => [.plain .endSym]
  | some rest => .plain .semicolon :: (rest.spelling ++ [.plain .endSym])

def Statement.join (first : Statement .one) : Option (Statement .list) → Statement .list
  | none => .last first
  | some rest => .followed first rest

theorem Statement.spelling_join (first : Statement .one) (rest : Option (Statement .list)) :
    (first.join rest).spelling ++ [.plain .endSym] = first.spelling ++ moreSpelling rest := by
  cases rest with
  | none => rfl
  | some rest => simp [join, spelling, moreSpelling]

theorem Statement.code_join (scope : Scope) (first : Statement .one)
    (rest : Option (Statement .list)) (i : Nat) :
    (first.join rest).code scope i =
      first.code scope i ++ rest.elim [] (·.code scope (i + first.size)) := by
  cases rest with
  | none => simp [join, code]
  | some rest => rfl

theorem Statement.scoped_join_iff {scope : Scope} {first : Statement .one}
    {rest : Option (Statement .list)} :
    (first.join rest).Scoped scope ↔ first.Scoped scope ∧ ∀ body ∈ rest, body.Scoped scope := by
  cases rest <;> simp [join]

/-- A chain of operands that has been read so far is read on. -/
def ReadsOperands (tier : Tier) (s t : Session) : Prop :=
  ∀ left : Expression (.chain tier), left.Scoped s.symbols.scope →
    ∃ (e : Expression (.chain tier)) (spelling : List Token) (code : List Instruction),
      e.Scoped s.symbols.scope ∧ e.spelling = left.spelling ++ spelling ∧
        e.code s.symbols.scope = left.code s.symbols.scope ++ code ∧
          Translates spelling [] code s t

def ReadsExpression (level : Level) (s t : Session) : Prop :=
  ∃ e : Expression level, e.Scoped s.symbols.scope ∧
    Translates e.spelling [] (e.code s.symbols.scope) s t

/--
What it means for a task that it is done: a piece of the program has been translated.
-/
def Task.Done (task : Task) (s t : Session) : Prop :=
  match task with
  | emit instruction => s.emit instruction = .ok t
  | expect kind _ => s.kind = kind ∧ t = s.advance
  | declare symbol => s.declare symbol = .ok t
  | patch index => s.patch index = .ok t
  | constantPart =>
    ∃ consts, Translates (partSpelling .constSym constantSpelling consts)
      (constantSymbols false consts) [] s t
  | constantName =>
    ∃ constant rest, Translates (constantSpelling constant ++ moreSpelling constantSpelling rest)
      (constantSymbols false (constant :: rest)) [] s t
  | constantValue name =>
    ∃ value rest, Translates (.number value :: moreSpelling constantSpelling rest)
      (constantSymbols false ((name, value) :: rest)) [] s t
  | moreConstants =>
    ∃ rest, Translates (moreSpelling constantSpelling rest) (constantSymbols false rest) [] s t
  | variablePart =>
    ∃ vars, Translates (partSpelling .varSym variableSpelling vars)
      (variableSymbols false 3 vars) [.reserve (Int32.ofNat (3 + vars.length))] s t
  | variableName address =>
    ∀ start, address = Int32.ofNat start →
      ∃ name rest, Translates (variableSpelling name ++ moreSpelling variableSpelling rest)
        (variableSymbols false start (name :: rest))
        [.reserve (Int32.ofNat (start + (rest.length + 1)))] s t
  | moreVariables address =>
    ∀ start, address = Int32.ofNat start →
      ∃ rest, Translates (moreSpelling variableSpelling rest) (variableSymbols false start rest)
        [.reserve (Int32.ofNat (start + rest.length))] s t
  | statement =>
    ∃ statement : Statement .one, statement.Scoped s.symbols.scope ∧
      Translates statement.spelling [] (statement.code s.symbols.scope s.code.size) s t
  | moreStatements =>
    ∃ rest : Option (Statement .list), (∀ body ∈ rest, body.Scoped s.symbols.scope) ∧
      Translates (Statement.moreSpelling rest) []
        (rest.elim [] (·.code s.symbols.scope s.code.size)) s t
  | readTarget =>
    ∃ name location, s.symbols.scope name = some (.var location) ∧
      Translates [.ident name] [] [.system .read, .store location] s t
  | receive name =>
    ∃ location, s.symbols.scope name = some (.var location) ∧
      Translates [] [] [.system .read, .store location] s t
  | thenPart =>
    ∃ body : Statement .one, body.Scoped s.symbols.scope ∧
      Translates (.plain .thenSym :: (body.spelling ++ [.plain .fiSym])) []
        (.branch (Int32.ofNat (3 * (s.code.size + 1 + body.size))) ::
          body.code s.symbols.scope (s.code.size + 1)) s t
  | loopPart start =>
    ∃ body : Statement .one, body.Scoped s.symbols.scope ∧
      Translates (.plain .doSym :: body.spelling) []
        (.branch (Int32.ofNat (3 * (s.code.size + body.size + 2))) ::
          (body.code s.symbols.scope (s.code.size + 1) ++ [.jump start])) s t
  | condition =>
    ∃ c : Condition, c.Scoped s.symbols.scope ∧
      Translates c.spelling [] (c.code s.symbols.scope) s t
  | relation =>
    ∃ (comparison : Comparison) (right : Expression .expression),
      right.Scoped s.symbols.scope ∧ Translates (.plain comparison.kind :: right.spelling) []
        (right.code s.symbols.scope ++ [.operate comparison.operation]) s t
  | expression => ReadsExpression .expression s t
  | moreTerms => ReadsOperands .sum s t
  | term => ReadsExpression .term s t
  | moreFactors => ReadsOperands .product s t
  | factor => ReadsExpression .factor s t
  | finish =>
    s.kind = .period ∧ s.code.size < s.code.capacity ∧ t.code = s.code.extend [.system .halt] ∧
      t.symbols = s.symbols.markAll

namespace Task

theorem done_task (level : Level) (s t : Session) :
    level.task.Done s t = ReadsExpression level s t := by
  rcases level with _ | _ | _ <;> rfl

theorem done_more (tier : Tier) (s t : Session) : tier.more.Done s t = ReadsOperands tier s t := by
  cases tier <;> rfl

end Task

theorem readsExpression_chain {tier : Tier} {s u t : Session}
    (hfirst : ReadsExpression tier.operand s u) (hmore : ReadsOperands tier u t) :
    ReadsExpression (.chain tier) s t := by
  obtain ⟨first, hscoped, hfirst⟩ := hfirst
  rw [← hfirst.scope_eq] at hscoped
  obtain ⟨e, spelling, code, hscoped, hspelling, hcode, hmore⟩ := hmore (.single first) hscoped
  rw [hfirst.scope_eq] at hscoped hcode
  refine ⟨e, hscoped, ?_⟩
  rw [hspelling, hcode]
  exact hfirst.trans hmore

theorem readsOperands_stop (tier : Tier) (s : Session) : ReadsOperands tier s s := by
  intro left hleft
  refine ⟨left, [], [], hleft, ?_, ?_, .refl s⟩
  · rw [List.append_nil]
  · rw [List.append_nil]

theorem readsOperands_operator {tier : Tier} {operator : Operator tier} {s u v t : Session}
    (hkind : s.kind = operator.kind) (hoperand : ReadsExpression tier.operand s.advance u)
    (hemit : u.emit (.operate operator.operation) = .ok v) (hmore : ReadsOperands tier v t) :
    ReadsOperands tier s t := by
  intro left hleft
  obtain ⟨right, hright, hoperand⟩ := hoperand
  have hoperator : Translates [.plain operator.kind] [] [] s s.advance := by
    apply Translates.of_plain hkind
    cases operator <;> decide
  have hemit := Translates.of_emit (by simp [Instruction.operate]) hemit
  have hread := (hoperator.trans hoperand).trans hemit
  simp only [List.append_nil, List.nil_append, List.singleton_append] at hread
  have hbinary : (Expression.binary left operator right).Scoped v.symbols.scope := by
    rw [hread.scope_eq, Expression.scoped_binary_iff]
    exact ⟨hleft, hright⟩
  -- What is read on from here continues the chain with the new operand.
  obtain ⟨e, spelling, code, hscoped, hspelling, hcode, hmore⟩ := hmore _ hbinary
  rw [hread.scope_eq] at hscoped hcode
  refine ⟨e, _, _, hscoped, ?_, ?_, hread.trans hmore⟩
  · rw [hspelling, Expression.spelling]
    simp
  · rw [hcode, Expression.code]
    simp [Session.advance]

namespace Task

variable {s u t : Session} {more : List Task}

theorem done_of_performFactor (h : performFactor s = .ok (more, u)) (hmore : Chain Done more u t) :
    factor.Done s t := by
  unfold performFactor at h
  split at h
  · next hkind =>
    split at h
    · cases h
    · next symbol hsymbol =>
      rw [Session.symbol_eq_ok_iff] at hsymbol
      obtain ⟨v, hemit, h⟩ := map_eq_ok_iff.1 h
      cases h
      cases hmore
      have hscope : s.symbols.scope s.token.lexeme = some symbol.binding := by
        rw [SymbolTable.scope, hsymbol, Option.map_some]
      have hread := Translates.of_emit_advance symbol.op_fetch_ne_jpc hemit hkind (by decide)
      rw [Session.bare_token_of_ident hkind] at hread
      refine ⟨.ident s.token.lexeme, ?_, ?_⟩
      · rw [Expression.scoped_ident_iff]
        exact ⟨_, hscope⟩
      · simpa [Expression.spelling, Expression.code, hscope, Symbol.fetch_eq] using hread
  · next hkind =>
    obtain ⟨v, hemit, h⟩ := map_eq_ok_iff.1 h
    cases h
    cases hmore
    have hread := Translates.of_emit_advance (by simp [Instruction.literal]) hemit hkind (by decide)
    rw [Session.bare_token_of_number hkind] at hread
    exact ⟨.number s.token.value, Expression.scoped_number _ _, hread⟩
  · next hkind =>
    cases h
    obtain ⟨v, ⟨e, hscoped, he⟩, w, ⟨hrparen, rfl⟩, rfl⟩ := hmore
    refine ⟨.parens e, hscoped, ?_⟩
    have hlparen := Translates.of_plain hkind (by decide)
    have hread := (hlparen.trans he).trans (Translates.of_plain hrparen (by decide))
    simpa [Expression.spelling, Expression.code] using hread
  · cases h

theorem done_of_perform_more {tier : Tier} (h : tier.more.perform s = .ok (more, u))
    (hmore : Chain Done more u t) : tier.more.Done s t := by
  rw [done_more]
  by_cases hoperator : ∃ operator : Operator tier, s.kind = operator.kind
  · obtain ⟨operator, hkind⟩ := hoperator
    rw [perform_more_operator operator hkind] at h
    cases h
    obtain ⟨v, hoperand, w, hemit, x, hmore, rfl⟩ := hmore
    rw [done_task] at hoperand
    rw [done_more] at hmore
    exact readsOperands_operator hkind hoperand hemit hmore
  · rw [perform_more_stop (by simpa using hoperator)] at h
    cases h
    cases hmore
    exact readsOperands_stop tier s

theorem done_of_perform_chain {tier : Tier}
    (h : (Level.chain tier).task.perform s = .ok (more, u)) (hmore : Chain Done more u t) :
    (Level.chain tier).task.Done s t := by
  rw [perform_chain] at h
  cases h
  obtain ⟨v, hoperand, w, hmore, rfl⟩ := hmore
  rw [done_task] at hoperand ⊢
  rw [done_more] at hmore
  exact readsExpression_chain hoperand hmore

theorem done_of_perform_relation (h : relation.perform s = .ok (more, u))
    (hmore : Chain Done more u t) : relation.Done s t := by
  simp only [perform] at h
  split at h
  · next operation hsome =>
    obtain ⟨comparison, hkind, rfl⟩ := Comparison.exists_of_ofRelation? hsome
    cases h
    obtain ⟨v, ⟨right, hscoped, hright⟩, w, hemit, rfl⟩ := hmore
    refine ⟨comparison, right, hscoped, ?_⟩
    have hcomparison := Translates.of_plain hkind.symm (by cases comparison <;> decide)
    have hemit := Translates.of_emit (by simp [Instruction.operate]) hemit
    simpa using (hcomparison.trans hright).trans hemit
  · cases h

theorem done_of_perform_condition (h : condition.perform s = .ok (more, u))
    (hmore : Chain Done more u t) : condition.Done s t := by
  simp only [perform] at h
  split at h
  · next hkind =>
    cases h
    obtain ⟨v, ⟨operand, hscoped, hoperand⟩, w, hemit, rfl⟩ := hmore
    refine ⟨.even operand, hscoped, ?_⟩
    have heven := Translates.of_plain hkind (by decide)
    have hemit := Translates.of_emit (by simp [Instruction.operate]) hemit
    simpa [Condition.spelling, Condition.code] using (heven.trans hoperand).trans hemit
  · cases h
    obtain ⟨v, ⟨left, hleft, hread⟩, w, ⟨comparison, right, hright, hread'⟩, rfl⟩ := hmore
    rw [hread.scope_eq] at hright hread'
    refine ⟨.compare left comparison right, ?_, ?_⟩
    · rw [Condition.scoped_compare_iff]
      exact ⟨hleft, hright⟩
    · exact hread.trans hread'

theorem done_of_perform_thenPart (h : thenPart.perform s = .ok (more, u))
    (hmore : Chain Done more u t) : thenPart.Done s t := by
  obtain ⟨v, hhole, h⟩ := map_eq_ok_iff.1 h
  cases h
  obtain ⟨_, ⟨hthen, rfl⟩, w, ⟨body, hscoped, hbody⟩, x, hpatch, y, ⟨hfi, rfl⟩, rfl⟩ := hmore
  have hv := (Session.emit_hole_eq_ok_iff.1 hhole).2
  have hthen := Translates.of_plain hthen (by decide)
  -- The branch stands before `then`, and is directed behind the body before `fi` is read.
  have hbranch := Translates.of_branch hhole (hthen.trans hbody) hpatch
  have hread := hbranch.trans (Translates.of_plain hfi (by decide))
  subst hv
  refine ⟨body, hscoped, ?_⟩
  simp only [List.nil_append, List.append_nil, List.cons_append, Statement.length_code hscoped,
    Session.code_advance, Code.size_extendOpen, List.length_nil, Nat.add_zero] at hread
  exact hread

theorem done_of_perform_loopPart {start : Word} (h : (loopPart start).perform s = .ok (more, u))
    (hmore : Chain Done more u t) : (loopPart start).Done s t := by
  obtain ⟨v, hhole, h⟩ := map_eq_ok_iff.1 h
  cases h
  obtain ⟨_, ⟨hdo, rfl⟩, w, ⟨body, hscoped, hbody⟩, x, hjump, y, hpatch, rfl⟩ := hmore
  have hv := (Session.emit_hole_eq_ok_iff.1 hhole).2
  have hdo := Translates.of_plain hdo (by decide)
  have hjump := Translates.of_emit (by simp [Instruction.jump]) hjump
  have hread := Translates.of_branch hhole ((hdo.trans hbody).trans hjump) hpatch
  subst hv
  refine ⟨body, hscoped, ?_⟩
  have hsize : s.code.size + 1 + (body.size + 1) = s.code.size + body.size + 2 := by omega
  simp only [List.nil_append, List.append_nil, List.singleton_append, List.length_append,
    Statement.length_code hscoped, Session.code_advance, Code.size_extendOpen, List.length_nil,
    List.length_singleton, Nat.add_zero, hsize] at hread
  exact hread

theorem done_of_performStatement (h : performStatement s = .ok (more, u))
    (hmore : Chain Done more u t) : statement.Done s t := by
  unfold performStatement at h
  split at h
  · next hkind =>
    obtain ⟨location, hlocation, h⟩ := map_eq_ok_iff.1 h
    rw [Session.locationOf_eq_ok_iff] at hlocation
    cases h
    obtain ⟨_, ⟨hbecomes, rfl⟩, v, ⟨value, hscoped, hvalue⟩, w, hstore, rfl⟩ := hmore
    have hname := Translates.of_advance hkind (by decide)
    rw [Session.bare_token_of_ident hkind] at hname
    have hbecomes := Translates.of_plain hbecomes (by decide)
    have hstore := Translates.of_emit (by simp [Instruction.store]) hstore
    refine ⟨.assign s.token.lexeme value, ?_, ?_⟩
    · rw [Statement.scoped_assign_iff]
      exact ⟨hscoped, location, hlocation⟩
    · simpa [Statement.spelling, Statement.code, Scope.location_eq hlocation] using
        ((hname.trans hbecomes).trans hvalue).trans hstore
  · next hkind =>
    cases h
    obtain ⟨v, ⟨name, location, hlocation, hread⟩, rfl⟩ := hmore
    have hkeyword := Translates.of_plain hkind (by decide)
    refine ⟨.read name, ?_, ?_⟩
    · rw [Statement.scoped_read_iff]
      exact ⟨location, hlocation⟩
    · have hlocation := Scope.location_eq hlocation
      rw [Session.symbols_advance] at hlocation
      rw [Statement.code, hlocation]
      exact hkeyword.trans hread
  · next hkind =>
    cases h
    obtain ⟨v, ⟨value, hscoped, hvalue⟩, w, hwrite, rfl⟩ := hmore
    have hkeyword := Translates.of_plain hkind (by decide)
    have hwrite := Translates.of_emit (by simp [Instruction.system]) hwrite
    refine ⟨.write value, Statement.scoped_write_iff.2 hscoped, ?_⟩
    simpa [Statement.spelling, Statement.code] using (hkeyword.trans hvalue).trans hwrite
  · next hkind =>
    cases h
    obtain ⟨v, ⟨first, hfirst, hread⟩, w, ⟨rest, hrest, hmore⟩, rfl⟩ := hmore
    rw [hread.scope_eq, hread.size_eq, Statement.length_code hfirst] at hmore
    rw [hread.scope_eq] at hrest
    have hkeyword := Translates.of_plain hkind (by decide)
    refine ⟨.compound (first.join rest), ?_, ?_⟩
    · rw [Statement.scoped_compound_iff, Statement.scoped_join_iff]
      exact ⟨hfirst, hrest⟩
    · rw [Statement.spelling, Statement.code, Statement.spelling_join, Statement.code_join]
      exact (hkeyword.trans hread).trans hmore
  · next hkind =>
    cases h
    obtain ⟨v, ⟨c, hc, hcondition⟩, w, ⟨body, hbody, hthen⟩, rfl⟩ := hmore
    rw [hcondition.scope_eq, hcondition.size_eq, Condition.length_code hc] at hthen
    rw [hcondition.scope_eq] at hbody
    have hkeyword := Translates.of_plain hkind (by decide)
    refine ⟨.ifThen c body, Statement.scoped_ifThen_iff.2 ⟨hc, hbody⟩, ?_⟩
    exact (hkeyword.trans hcondition).trans hthen
  · next hkind =>
    cases h
    obtain ⟨v, ⟨c, hc, hcondition⟩, w, ⟨body, hbody, hloop⟩, rfl⟩ := hmore
    rw [hcondition.scope_eq, hcondition.size_eq, Condition.length_code hc] at hloop
    rw [hcondition.scope_eq] at hbody
    have hkeyword := Translates.of_plain hkind (by decide)
    refine ⟨.whileDo c body, Statement.scoped_whileDo_iff.2 ⟨hc, hbody⟩, ?_⟩
    rw [Code.nextAddress_eq] at hloop
    exact (hkeyword.trans hcondition).trans hloop
  · cases h
    cases hmore
    exact ⟨.empty, Statement.scoped_empty _, .refl s⟩

theorem done_of_perform_moreStatements (h : moreStatements.perform s = .ok (more, u))
    (hmore : Chain Done more u t) : moreStatements.Done s t := by
  simp only [perform] at h
  split at h
  · next hkind =>
    cases h
    obtain ⟨v, ⟨first, hfirst, hread⟩, w, ⟨rest, hrest, hmore⟩, rfl⟩ := hmore
    rw [hread.scope_eq, hread.size_eq, Statement.length_code hfirst] at hmore
    rw [hread.scope_eq] at hrest
    have hsemicolon := Translates.of_plain hkind (by decide)
    refine ⟨some (first.join rest), ?_, ?_⟩
    · intro body hbody
      cases hbody
      exact Statement.scoped_join_iff.2 ⟨hfirst, hrest⟩
    · rw [Statement.moreSpelling, Option.elim_some, Statement.spelling_join, Statement.code_join]
      exact (hsemicolon.trans hread).trans hmore
  · cases h
    obtain ⟨_, ⟨hend, rfl⟩, rfl⟩ := hmore
    exact ⟨none, by simp, Translates.of_plain hend (by decide)⟩

theorem done_of_perform_constants {task : Task}
    (htask : task = constantPart ∨ task = constantName ∨ task = moreConstants)
    (h : task.perform s = .ok (more, u)) (hmore : Chain Done more u t) : task.Done s t := by
  rcases htask with rfl | rfl | rfl
  · simp only [perform] at h
    split at h
    · next hkind =>
      cases h
      obtain ⟨v, ⟨constant, rest, hread⟩, rfl⟩ := hmore
      exact ⟨constant :: rest, (Translates.of_plain hkind (by decide)).trans hread⟩
    · cases h
      cases hmore
      exact ⟨[], .refl s⟩
  · simp only [perform] at h
    split at h
    · next hkind =>
      cases h
      obtain ⟨_, ⟨heql, rfl⟩, v, ⟨value, rest, hread⟩, rfl⟩ := hmore
      have hname := Translates.of_advance hkind (by decide)
      rw [Session.bare_token_of_ident hkind] at hname
      refine ⟨(s.token.lexeme, value), rest, ?_⟩
      exact (hname.trans (Translates.of_plain heql (by decide))).trans hread
    · cases h
  · simp only [perform] at h
    split at h
    · next hkind =>
      cases h
      obtain ⟨v, ⟨constant, rest, hread⟩, rfl⟩ := hmore
      exact ⟨constant :: rest, (Translates.of_plain hkind (by decide)).trans hread⟩
    · cases h
      obtain ⟨_, ⟨hsemicolon, rfl⟩, rfl⟩ := hmore
      exact ⟨[], Translates.of_plain hsemicolon (by decide)⟩

theorem done_of_perform_constantValue {name : String}
    (h : (constantValue name).perform s = .ok (more, u)) (hmore : Chain Done more u t) :
    (constantValue name).Done s t := by
  simp only [perform] at h
  split at h
  · next hkind =>
    cases h
    obtain ⟨v, hdeclare, w, ⟨rest, hread⟩, rfl⟩ := hmore
    have hvalue := Translates.of_advance hkind (by decide)
    rw [Session.bare_token_of_number hkind] at hvalue
    refine ⟨s.token.value, rest, ?_⟩
    exact (hvalue.trans (Translates.of_declare hdeclare)).trans hread
  · cases h

theorem done_of_perform_variablePart (h : variablePart.perform s = .ok (more, u))
    (hmore : Chain Done more u t) : variablePart.Done s t := by
  simp only [perform] at h
  split at h
  · next hkind =>
    cases h
    obtain ⟨v, hnames, rfl⟩ := hmore
    obtain ⟨name, rest, hread⟩ := hnames 3 rfl
    exact ⟨name :: rest, (Translates.of_plain hkind (by decide)).trans hread⟩
  · cases h
    obtain ⟨v, hreserve, rfl⟩ := hmore
    exact ⟨[], Translates.of_emit (by simp [Instruction.reserve]) hreserve⟩

theorem done_of_perform_variableName {address : Word}
    (h : (variableName address).perform s = .ok (more, u)) (hmore : Chain Done more u t) :
    (variableName address).Done s t := by
  rintro start rfl
  simp only [perform] at h
  split at h
  · next hkind =>
    cases h
    obtain ⟨v, hdeclare, w, hnames, rfl⟩ := hmore
    obtain ⟨rest, hread⟩ := hnames (start + 1) (by simp)
    have hname := Translates.of_advance hkind (by decide)
    rw [Session.bare_token_of_ident hkind] at hname
    refine ⟨s.token.lexeme, rest, ?_⟩
    rw [Declarations.variableSymbols_cons, Nat.add_comm rest.length, ← Nat.add_assoc]
    exact (hname.trans (Translates.of_declare hdeclare)).trans hread
  · cases h

theorem done_of_perform_moreVariables {address : Word}
    (h : (moreVariables address).perform s = .ok (more, u)) (hmore : Chain Done more u t) :
    (moreVariables address).Done s t := by
  rintro start rfl
  simp only [perform] at h
  split at h
  · next hkind =>
    cases h
    obtain ⟨v, hnames, rfl⟩ := hmore
    obtain ⟨name, rest, hread⟩ := hnames start rfl
    exact ⟨name :: rest, (Translates.of_plain hkind (by decide)).trans hread⟩
  · cases h
    obtain ⟨_, ⟨hsemicolon, rfl⟩, v, hreserve, rfl⟩ := hmore
    have hreserve := Translates.of_emit (by simp [Instruction.reserve]) hreserve
    exact ⟨[], (Translates.of_plain hsemicolon (by decide)).trans hreserve⟩

theorem done_of_perform_readTarget (h : readTarget.perform s = .ok (more, u))
    (hmore : Chain Done more u t) : readTarget.Done s t := by
  simp only [perform] at h
  split at h
  · next hkind =>
    cases h
    obtain ⟨v, ⟨location, hlocation, hread⟩, rfl⟩ := hmore
    have hname := Translates.of_advance hkind (by decide)
    rw [Session.bare_token_of_ident hkind] at hname
    exact ⟨s.token.lexeme, location, hlocation, hname.trans hread⟩
  · cases h

theorem done_of_perform_receive {name : String} (h : (receive name).perform s = .ok (more, u))
    (hmore : Chain Done more u t) : (receive name).Done s t := by
  obtain ⟨location, hlocation, h⟩ := map_eq_ok_iff.1 h
  rw [Session.locationOf_eq_ok_iff] at hlocation
  cases h
  obtain ⟨v, hread, w, hstore, rfl⟩ := hmore
  have hread := Translates.of_emit (by simp [Instruction.system]) hread
  have hstore := Translates.of_emit (by simp [Instruction.store]) hstore
  exact ⟨location, hlocation, hread.trans hstore⟩

theorem done_of_perform_finish (h : finish.perform s = .ok (more, u))
    (hmore : Chain Done more u t) : finish.Done s t := by
  simp only [perform] at h
  split at h
  · next hkind =>
    obtain ⟨v, hemit, h⟩ := map_eq_ok_iff.1 h
    cases h
    cases hmore
    obtain ⟨⟨index, after⟩, hcode, _⟩ := map_eq_ok_iff.1 hemit
    have hroom := (Code.emit_eq_ok_iff.1 hcode).1
    have hhalt := Translates.of_emit (by simp [Instruction.system]) hemit
    have hsymbols := congrArg SymbolTable.markAll hhalt.symbols_eq
    exact ⟨hkind, hroom, hhalt.code, hsymbols⟩
  · cases h

theorem done_of_perform {task : Task} (h : task.perform s = .ok (more, u))
    (hmore : Chain Done more u t) : task.Done s t := by
  cases task with
  | emit | declare | patch =>
    obtain ⟨v, hv, h⟩ := map_eq_ok_iff.1 h
    cases h
    cases hmore
    exact hv
  | expect kind fault =>
    simp only [perform] at h
    split at h
    · next hkind =>
      cases h
      cases hmore
      exact ⟨hkind, rfl⟩
    · cases h
  | constantPart => exact done_of_perform_constants (.inl rfl) h hmore
  | constantName => exact done_of_perform_constants (.inr (.inl rfl)) h hmore
  | moreConstants => exact done_of_perform_constants (.inr (.inr rfl)) h hmore
  | constantValue => exact done_of_perform_constantValue h hmore
  | variablePart => exact done_of_perform_variablePart h hmore
  | variableName => exact done_of_perform_variableName h hmore
  | moreVariables => exact done_of_perform_moreVariables h hmore
  | statement => exact done_of_performStatement h hmore
  | moreStatements => exact done_of_perform_moreStatements h hmore
  | readTarget => exact done_of_perform_readTarget h hmore
  | receive => exact done_of_perform_receive h hmore
  | thenPart => exact done_of_perform_thenPart h hmore
  | loopPart => exact done_of_perform_loopPart h hmore
  | condition => exact done_of_perform_condition h hmore
  | relation => exact done_of_perform_relation h hmore
  | expression => exact @done_of_perform_chain s u t more .sum h hmore
  | moreTerms => exact @done_of_perform_more s u t more .sum h hmore
  | term => exact @done_of_perform_chain s u t more .product h hmore
  | moreFactors => exact @done_of_perform_more s u t more .product h hmore
  | factor => exact done_of_performFactor h hmore
  | finish => exact done_of_perform_finish h hmore

end Task

theorem declared_empty_iff {d : Declarations} {capacity : Nat} {after : SymbolTable} :
    Declared (d.symbols false) (.empty capacity) after ↔
      d.names.Nodup ∧ d.names.length ≤ capacity ∧
        after = ⟨capacity, (d.symbols false).reverse⟩ := by
  rw [declared_iff (d.marked_of_mem_symbols false)]
  · rw [← d.map_name_symbols false, List.length_map]
    simp [SymbolTable.empty, SymbolTable.entries, SymbolTable.size]
  · simp [SymbolTable.empty, SymbolTable.entries]
  · simp [SymbolTable.empty, SymbolTable.entries]
  · simp [SymbolTable.empty, SymbolTable.size]

/--
A pass that succeeds has read a program whose names are properly used, and has produced its code and
its symbols.
-/
theorem exists_program_of_performs {tokens : List Token} {limits : Limits} {t : Session}
    (h : Performs Task.program (.initial tokens limits) t) :
    ∃ program : Program, program.SpelledBy (Token.throughPeriod tokens) ∧ program.WellScoped ∧
      program.Fits limits ∧ t.target = program.target := by
  obtain ⟨u, hjump, v, ⟨consts, hconsts⟩, w, ⟨vars, hvars⟩, x, ⟨body, hscoped, hbody⟩, y,
    ⟨hperiod, hroom, hcode, hsymbols⟩, rfl⟩ := h.chain Task.done_of_perform
  have hjump := Translates.of_emit (by simp [Instruction.jump]) hjump
  have hdeclarations := (hjump.trans hconsts).trans hvars
  have hread := hdeclarations.trans hbody
  -- The table starts empty, so the declared symbols are all there is in it.
  obtain ⟨hnodup, hnames, htable⟩ := (@declared_empty_iff ⟨consts, vars⟩).1 hdeclarations.symbols
  have hscope : w.symbols.scope = Declarations.scope ⟨consts, vars⟩ := by
    apply SymbolTable.scope_eq hnodup
    rw [htable]
  have hsize : w.code.size = 2 := by
    rw [hdeclarations.size_eq]
    rfl
  have hinstructions : t.code.instructions = Program.code ⟨⟨consts, vars⟩, body⟩ := by
    rw [hcode, hread.code, Code.extend_extend, Code.instructions_extend, hscope, hsize]
    rfl
  rw [hscope] at hscoped
  refine ⟨⟨⟨consts, vars⟩, body⟩, ?_, ⟨hnodup, ?_, ?_⟩, ⟨hnames, ?_⟩, ?_⟩
  · rw [Program.spelledBy_throughPeriod_iff]
    refine ⟨x.cursor.rest, hperiod, ?_⟩
    have hspelling := hread.spelling
    rw [List.append_assoc] at hspelling
    exact hspelling
  · intro name hname
    rw [← Declarations.isSome_scope_iff]
    exact hscoped.1 name hname
  · intro name hname
    obtain ⟨location, hlocation⟩ := hscoped.2 name hname
    obtain ⟨i, hi, _⟩ := (Declarations.scope_eq_var_iff hnodup).1 hlocation
    exact List.mem_of_getElem? hi
  · rw [← hinstructions, Code.length_instructions, hcode, Code.size_extend]
    rw [hread.capacity_eq] at hroom
    exact hroom
  · rw [Session.target, Program.target, hinstructions, hsymbols, hbody.symbols_eq, htable,
      SymbolTable.entries_markAll, SymbolTable.entries, List.reverse_reverse,
      Declarations.map_mark_symbols]

end PL0
