import PL0.Proofs.Move
import PL0.Proofs.Syntax.Unambiguous
import PL0.Proofs.Translation.Soundness

/-!
This module contains the grammar that agendas stand for. Each task stands for the spellings of some
kind of tree. A move agrees with the grammar in both directions: what takes the place of a task,
behind the token that is read, stands for nothing that the task does not stand for; and where the
tokens can be taken as the task wants them, the move finds out how, by the next token alone, or
fails because of what a name means.
-/

namespace PL0

open Token (firstKind)
open Declarations (partSpelling moreSpelling constantSpelling variableSpelling)

theorem Token.bare_eq_plain {token : Token} {kind : Kind} (h : token.kind = kind)
    (hident : kind ≠ .ident := by decide) (hnumber : kind ≠ .number := by decide) :
    token.bare = .plain kind :=
  (bare_eq_plain_iff hident hnumber).2 h

theorem Operator.kind_ne {tier : Tier} (operator : Operator tier) :
    operator.kind ≠ .ident ∧ operator.kind ≠ .number := by
  cases operator <;> decide

theorem Comparison.kind_ne (comparison : Comparison) :
    comparison.kind ≠ .ident ∧ comparison.kind ≠ .number := by
  cases comparison <;> decide

namespace Task

/-- The tokens are a spelling of what the task stands for, followed by `rest`. -/
def Spans (task : Task) (tokens rest : List Token) : Prop :=
  match task with
  | emit _ | declare _ | patch _ | receive _ => tokens = rest
  | expect kind _ => tokens = .plain kind :: rest
  | constantPart => ∃ consts, tokens = partSpelling .constSym constantSpelling consts ++ rest
  | constantName =>
    ∃ constant consts,
      tokens = constantSpelling constant ++ (moreSpelling constantSpelling consts ++ rest)
  | constantValue _ =>
    ∃ value consts, tokens = .number value :: (moreSpelling constantSpelling consts ++ rest)
  | moreConstants => ∃ consts, tokens = moreSpelling constantSpelling consts ++ rest
  | variablePart => ∃ vars, tokens = partSpelling .varSym variableSpelling vars ++ rest
  | variableName _ =>
    ∃ name vars, tokens = variableSpelling name ++ (moreSpelling variableSpelling vars ++ rest)
  | moreVariables _ => ∃ vars, tokens = moreSpelling variableSpelling vars ++ rest
  | statement => ∃ s : Statement .one, tokens = s.spelling ++ rest
  | moreStatements => ∃ body, tokens = Statement.moreSpelling body ++ rest
  | readTarget => ∃ name, tokens = .ident name :: rest
  | thenPart =>
    ∃ body : Statement .one,
      tokens = .plain .thenSym :: (body.spelling ++ .plain .fiSym :: rest)
  | loopPart _ => ∃ body : Statement .one, tokens = .plain .doSym :: (body.spelling ++ rest)
  | condition => ∃ c : Condition, tokens = c.spelling ++ rest
  | relation =>
    ∃ (comparison : Comparison) (right : Expression .expression),
      tokens = .plain comparison.kind :: (right.spelling ++ rest)
  | expression => ∃ e : Expression .expression, tokens = e.spelling ++ rest
  | moreTerms =>
    ∃ more : List (Operator .sum × Expression .term),
      tokens = Expression.moreSpelling more ++ rest
  | term => ∃ e : Expression .term, tokens = e.spelling ++ rest
  | moreFactors =>
    ∃ more : List (Operator .product × Expression .factor),
      tokens = Expression.moreSpelling more ++ rest
  | factor => ∃ e : Expression .factor, tokens = e.spelling ++ rest
  | finish => tokens = .plain .period :: rest

/-- Each task of an agenda leads from some tokens to those behind it as `R` allows. -/
def Threads (R : Task → List Token → List Token → Prop) :
    List Task → List Token → List Token → Prop
  | [], tokens, rest => tokens = rest
  | task :: tasks, tokens, rest => ∃ middle, R task tokens middle ∧ Threads R tasks middle rest

theorem threads_append_iff {R : Task → List Token → List Token → Prop} {tasks others : List Task}
    {tokens rest : List Token} :
    Threads R (tasks ++ others) tokens rest ↔
      ∃ middle, Threads R tasks tokens middle ∧ Threads R others middle rest := by
  induction tasks generalizing tokens with
  | nil => simp [Threads]
  | cons task tasks ih =>
    simp only [List.cons_append, Threads, ih]
    constructor
    · rintro ⟨first, htask, middle, htasks, hothers⟩
      exact ⟨middle, ⟨first, htask, htasks⟩, hothers⟩
    · rintro ⟨middle, ⟨first, htask, htasks⟩, hothers⟩
      exact ⟨first, htask, middle, htasks, hothers⟩

/-- What takes the place of the task, behind the token that is read, is a way to spell what the task
stands for. -/
def Sound (task : Task) : Prop :=
  ∀ {token : Token} {scope : Scope} {size : Nat} {move : Move} {tokens rest : List Token},
    task.move token scope size = .ok move → Threads Spans move.more tokens rest →
      task.Spans (if move.reads then token.bare :: tokens else tokens) rest

theorem sound_expect {kind : Kind} {fault : Fault} (htask : (expect kind fault).Proper) :
    Sound (expect kind fault) := by
  intro token scope size move tokens rest h hmore
  simp only [Task.move] at h
  split at h
  · next hkind =>
    cases h
    simp only [Proper, List.mem_cons, not_or] at htask
    rw [if_pos rfl, (Token.bare_eq_plain_iff htask.1 htask.2.1).2 hkind]
    exact congrArg _ hmore
  · cases h

theorem sound_constantPart : Sound constantPart := by
  intro token scope size move tokens rest h hmore
  simp only [Task.move] at h
  split at h
  · next hkind =>
    cases h
    obtain ⟨_, ⟨constant, consts, rfl⟩, rfl⟩ := hmore
    refine ⟨constant :: consts, ?_⟩
    simp [partSpelling, Token.bare_eq_plain hkind]
  · cases h
    exact ⟨[], hmore⟩

theorem sound_constantName : Sound constantName := by
  intro token scope size move tokens rest h hmore
  simp only [Task.move] at h
  split at h
  · next hkind =>
    cases h
    obtain ⟨_, rfl, _, ⟨value, consts, rfl⟩, rfl⟩ := hmore
    refine ⟨(token.lexeme, value), consts, ?_⟩
    simp [constantSpelling, Token.bare_eq_ident_iff.2 ⟨hkind, rfl⟩]
  · cases h

theorem sound_constantValue (name : String) : Sound (constantValue name) := by
  intro token scope size move tokens rest h hmore
  simp only [Task.move] at h
  split at h
  · next hkind =>
    cases h
    obtain ⟨_, rfl, _, ⟨consts, rfl⟩, rfl⟩ := hmore
    refine ⟨token.value, consts, ?_⟩
    simp [Token.bare_eq_number_iff.2 ⟨hkind, rfl⟩]
  · cases h

theorem sound_moreConstants : Sound moreConstants := by
  intro token scope size move tokens rest h hmore
  simp only [Task.move] at h
  split at h
  · next hkind =>
    cases h
    obtain ⟨_, ⟨constant, consts, rfl⟩, rfl⟩ := hmore
    refine ⟨constant :: consts, ?_⟩
    simp [moreSpelling, Token.bare_eq_plain hkind]
  · cases h
    obtain ⟨_, rfl, rfl⟩ := hmore
    exact ⟨[], rfl⟩

theorem sound_variablePart : Sound variablePart := by
  intro token scope size move tokens rest h hmore
  simp only [Task.move] at h
  split at h
  · next hkind =>
    cases h
    obtain ⟨_, ⟨name, vars, rfl⟩, rfl⟩ := hmore
    refine ⟨name :: vars, ?_⟩
    simp [partSpelling, Token.bare_eq_plain hkind]
  · cases h
    obtain ⟨_, rfl, rfl⟩ := hmore
    exact ⟨[], rfl⟩

theorem sound_variableName (address : Word) : Sound (variableName address) := by
  intro token scope size move tokens rest h hmore
  simp only [Task.move] at h
  split at h
  · next hkind =>
    cases h
    obtain ⟨_, rfl, _, ⟨vars, rfl⟩, rfl⟩ := hmore
    refine ⟨token.lexeme, vars, ?_⟩
    simp [variableSpelling, Token.bare_eq_ident_iff.2 ⟨hkind, rfl⟩]
  · cases h

theorem sound_moreVariables (address : Word) : Sound (moreVariables address) := by
  intro token scope size move tokens rest h hmore
  simp only [Task.move] at h
  split at h
  · next hkind =>
    cases h
    obtain ⟨_, ⟨name, vars, rfl⟩, rfl⟩ := hmore
    refine ⟨name :: vars, ?_⟩
    simp [moreSpelling, Token.bare_eq_plain hkind]
  · cases h
    obtain ⟨_, rfl, _, rfl, rfl⟩ := hmore
    exact ⟨[], rfl⟩

theorem sound_statement : Sound statement := by
  intro token scope size move tokens rest h hmore
  simp only [Task.move] at h
  split at h
  · next hkind =>
    split at h
    · cases h
    · cases h
      obtain ⟨_, rfl, _, ⟨value, rfl⟩, _, rfl, rfl⟩ := hmore
      refine ⟨.assign token.lexeme value, ?_⟩
      simp [Statement.spelling, Token.bare_eq_ident_iff.2 ⟨hkind, rfl⟩]
  · next hkind =>
    cases h
    obtain ⟨_, ⟨name, rfl⟩, rfl⟩ := hmore
    refine ⟨.read name, ?_⟩
    simp [Statement.spelling, Token.bare_eq_plain hkind]
  · next hkind =>
    cases h
    obtain ⟨_, ⟨value, rfl⟩, _, rfl, rfl⟩ := hmore
    refine ⟨.write value, ?_⟩
    simp [Statement.spelling, Token.bare_eq_plain hkind]
  · next hkind =>
    cases h
    obtain ⟨_, ⟨first, rfl⟩, _, ⟨body, rfl⟩, rfl⟩ := hmore
    refine ⟨.compound (first.join body), ?_⟩
    simp [Statement.spelling, Statement.spelling_join, Token.bare_eq_plain hkind]
  · next hkind =>
    cases h
    obtain ⟨_, ⟨condition, rfl⟩, _, ⟨body, rfl⟩, rfl⟩ := hmore
    refine ⟨.ifThen condition body, ?_⟩
    simp [Statement.spelling, Token.bare_eq_plain hkind]
  · next hkind =>
    cases h
    obtain ⟨_, ⟨condition, rfl⟩, _, ⟨body, rfl⟩, rfl⟩ := hmore
    refine ⟨.whileDo condition body, ?_⟩
    simp [Statement.spelling, Token.bare_eq_plain hkind]
  · cases h
    exact ⟨.empty, hmore⟩

theorem sound_moreStatements : Sound moreStatements := by
  intro token scope size move tokens rest h hmore
  simp only [Task.move] at h
  split at h
  · next hkind =>
    cases h
    obtain ⟨_, ⟨first, rfl⟩, _, ⟨body, rfl⟩, rfl⟩ := hmore
    refine ⟨some (first.join body), ?_⟩
    simp [Statement.moreSpelling, Statement.spelling_join, Token.bare_eq_plain hkind]
  · cases h
    obtain ⟨_, rfl, rfl⟩ := hmore
    exact ⟨none, rfl⟩

theorem sound_readTarget : Sound readTarget := by
  intro token scope size move tokens rest h hmore
  simp only [Task.move] at h
  split at h
  · next hkind =>
    cases h
    obtain ⟨_, rfl, rfl⟩ := hmore
    refine ⟨token.lexeme, ?_⟩
    simp [Token.bare_eq_ident_iff.2 ⟨hkind, rfl⟩]
  · cases h

theorem sound_receive (name : String) : Sound (receive name) := by
  intro token scope size move tokens rest h hmore
  simp only [Task.move] at h
  split at h
  · cases h
  · cases h
    obtain ⟨_, rfl, _, rfl, rfl⟩ := hmore
    rfl

theorem sound_thenPart : Sound thenPart := by
  intro token scope size move tokens rest h hmore
  cases h
  obtain ⟨_, rfl, _, ⟨body, rfl⟩, _, rfl, _, rfl, rfl⟩ := hmore
  exact ⟨body, rfl⟩

theorem sound_loopPart (start : Word) : Sound (loopPart start) := by
  intro token scope size move tokens rest h hmore
  cases h
  obtain ⟨_, rfl, _, ⟨body, rfl⟩, _, rfl, _, rfl, rfl⟩ := hmore
  exact ⟨body, rfl⟩

theorem sound_condition : Sound condition := by
  intro token scope size move tokens rest h hmore
  simp only [Task.move] at h
  split at h
  · next hkind =>
    cases h
    obtain ⟨_, ⟨operand, rfl⟩, _, rfl, rfl⟩ := hmore
    refine ⟨.even operand, ?_⟩
    simp [Condition.spelling, Token.bare_eq_plain hkind]
  · cases h
    obtain ⟨_, ⟨left, rfl⟩, _, ⟨comparison, right, rfl⟩, rfl⟩ := hmore
    refine ⟨.compare left comparison right, ?_⟩
    simp [Condition.spelling]

theorem sound_relation : Sound relation := by
  intro token scope size move tokens rest h hmore
  simp only [Task.move] at h
  split at h
  · next operation hsome =>
    cases h
    obtain ⟨comparison, hkind, _⟩ := Comparison.exists_of_ofRelation? hsome
    obtain ⟨_, ⟨right, rfl⟩, _, rfl, rfl⟩ := hmore
    refine ⟨comparison, right, ?_⟩
    have hbare := (Token.bare_eq_plain_iff comparison.kind_ne.1 comparison.kind_ne.2).2 hkind.symm
    rw [if_pos rfl, hbare]
  · cases h

theorem spans_level_iff {level : Level} {tokens rest : List Token} :
    level.task.Spans tokens rest ↔ ∃ e : Expression level, tokens = e.spelling ++ rest := by
  rcases level with _ | (_ | _) <;> rfl

theorem spans_more_iff {tier : Tier} {tokens rest : List Token} :
    tier.more.Spans tokens rest ↔
      ∃ more : List (Operator tier × Expression tier.operand),
        tokens = Expression.moreSpelling more ++ rest := by
  cases tier <;> rfl

theorem move_chain (tier : Tier) (token : Token) (scope : Scope) (size : Nat) :
    (Level.chain tier).task.move token scope size =
      .ok ⟨[tier.operand.task, tier.more], .none, false⟩ := by
  cases tier <;> rfl

theorem move_more (tier : Tier) (token : Token) (scope : Scope) (size : Nat) :
    (∃ operator : Operator tier, token.kind = operator.kind ∧
      tier.more.move token scope size =
        .ok ⟨[tier.operand.task, emit (.operate operator.operation), tier.more], .none, true⟩) ∨
    (∀ operator : Operator tier, token.kind ≠ operator.kind) ∧
      tier.more.move token scope size = .ok ⟨[], .none, false⟩ := by
  by_cases h : ∃ operator : Operator tier, token.kind = operator.kind
  · obtain ⟨operator, hkind⟩ := h
    refine .inl ⟨operator, hkind, ?_⟩
    cases operator <;> simp only [Tier.more, move, hkind] <;> rfl
  · rw [not_exists] at h
    refine .inr ⟨h, ?_⟩
    cases tier with
    | sum =>
      have hplus := h .plus
      have hminus := h .minus
      have hnone : Operation.ofSign? token.kind = none := by
        unfold Operation.ofSign?
        split <;> simp_all [Operator.kind]
      simp only [Tier.more, move, hnone]
    | product =>
      have htimes := h .times
      have hslash := h .slash
      have hnone : Operation.ofFactorSign? token.kind = none := by
        unfold Operation.ofFactorSign?
        split <;> simp_all [Operator.kind]
      simp only [Tier.more, move, hnone]

theorem sound_chain (tier : Tier) : Sound (Level.chain tier).task := by
  intro token scope size move tokens rest h hmore
  rw [move_chain] at h
  cases h
  simp only [Threads, spans_level_iff, spans_more_iff] at hmore
  obtain ⟨_, ⟨first, rfl⟩, _, ⟨more, rfl⟩, rfl⟩ := hmore
  refine spans_level_iff.2 ⟨(Expression.single first).extend more, ?_⟩
  simp [Expression.spelling_extend, Expression.spelling]

theorem sound_more (tier : Tier) : Sound tier.more := by
  intro token scope size move tokens rest h hmore
  obtain ⟨operator, hkind, hmove⟩ | ⟨_, hmove⟩ := move_more tier token scope size
  · rw [hmove] at h
    cases h
    simp only [Threads, spans_level_iff, spans_more_iff] at hmore
    obtain ⟨_, ⟨right, rfl⟩, _, rfl, _, ⟨more, rfl⟩, rfl⟩ := hmore
    refine spans_more_iff.2 ⟨(operator, right) :: more, ?_⟩
    have hbare := (Token.bare_eq_plain_iff operator.kind_ne.1 operator.kind_ne.2).2 hkind
    simp [Expression.moreSpelling, hbare]
  · rw [hmove] at h
    cases h
    exact spans_more_iff.2 ⟨[], hmore⟩

theorem sound_factor : Sound factor := by
  intro token scope size move tokens rest h hmore
  simp only [Task.move] at h
  split at h
  · next hkind =>
    split at h
    · cases h
    · cases h
      refine ⟨.ident token.lexeme, ?_⟩
      rw [if_pos rfl, Token.bare_eq_ident_iff.2 ⟨hkind, rfl⟩]
      exact congrArg _ hmore
  · next hkind =>
    cases h
    refine ⟨.number token.value, ?_⟩
    rw [if_pos rfl, Token.bare_eq_number_iff.2 ⟨hkind, rfl⟩]
    exact congrArg _ hmore
  · next hkind =>
    cases h
    obtain ⟨_, ⟨inner, rfl⟩, _, rfl, rfl⟩ := hmore
    refine ⟨.parens inner, ?_⟩
    simp [Expression.spelling, Token.bare_eq_plain hkind]
  · cases h

theorem Proper.sound {task : Task} (htask : task.Proper) : task.Sound := by
  cases task with
  | emit | declare | patch =>
    intro token scope size move tokens rest h hmore
    cases h
    exact hmore
  | expect => exact sound_expect htask
  | constantPart => exact sound_constantPart
  | constantName => exact sound_constantName
  | constantValue name => exact sound_constantValue name
  | moreConstants => exact sound_moreConstants
  | variablePart => exact sound_variablePart
  | variableName address => exact sound_variableName address
  | moreVariables address => exact sound_moreVariables address
  | statement => exact sound_statement
  | moreStatements => exact sound_moreStatements
  | readTarget => exact sound_readTarget
  | receive name => exact sound_receive name
  | thenPart => exact sound_thenPart
  | loopPart start => exact sound_loopPart start
  | condition => exact sound_condition
  | relation => exact sound_relation
  | expression => exact sound_chain .sum
  | moreTerms => exact sound_more .sum
  | term => exact sound_chain .product
  | moreFactors => exact sound_more .product
  | factor => exact sound_factor
  | finish => cases htask

/-- The kinds of the tokens that can stand behind what a task stands for. -/
def Follows : Task → Kind → Prop
  | constantPart, kind => kind ≠ .constSym
  | variablePart, kind => kind ≠ .varSym
  | statement, kind | loopPart _, kind => Extent.one.Ends kind
  | condition, kind | relation, kind | expression, kind | moreTerms, kind =>
    Level.expression.Stops kind
  | term, kind | moreFactors, kind => Level.term.Stops kind
  | _, _ => True

/-- The tokens can be taken as the task wants them, and it can be told where that ends. -/
def Takes (task : Task) (tokens rest : List Token) : Prop :=
  task.Spans tokens rest ∧ task.Follows (firstKind rest)

end Task

/-- Whether the fault is that a token cannot stand where it stands. -/
def Fault.isSyntactic : Fault → Bool
  | identifierExpected | equalsExpected | numberExpected | semicolonExpected | becomesExpected
  | endExpected | thenExpected | doExpected | relationExpected | rightParenExpected
  | factorExpected | periodExpected | fiExpected => true
  | unreadableText | duplicateSymbol | undeclaredIdentifier | assignmentToConstant => false

theorem Scope.isSyntactic_of_variable {scope : Scope} {name : String} {fault : Fault}
    (h : scope.variable name = .error fault) : fault.isSyntactic = false := by
  unfold Scope.variable at h
  split at h <;> cases h <;> rfl

theorem Scope.isSyntactic_of_fetch {scope : Scope} {name : String} {fault : Fault}
    (h : scope.fetch name = .error fault) : fault.isSyntactic = false := by
  unfold fetch at h
  split at h <;> cases h
  rfl

namespace Task

/--
Where the tokens can be taken, the task goes on with tasks that take them, or it fails because of
what a name means.
-/
def Complete (task : Task) : Prop :=
  ∀ {tokens rest : List Token} (scope : Scope) (size : Nat), task.Takes tokens rest →
    (∃ move, task.move (tokens.headD .endOfInput) scope size = .ok move ∧
      Threads Takes move.more (if move.reads then tokens.tail else tokens) rest) ∨
    ∃ fault, task.move (tokens.headD .endOfInput) scope size = .error fault ∧
      fault.isSyntactic = false

theorem complete_expect (kind : Kind) (fault : Fault) : Complete (expect kind fault) := by
  rintro _ rest scope size ⟨rfl, _⟩
  exact .inl ⟨_, if_pos rfl, rfl⟩

theorem complete_constantPart : Complete constantPart := by
  rintro _ rest scope size ⟨⟨consts, rfl⟩, hfollows⟩
  cases consts with
  | nil => exact .inl ⟨_, if_neg hfollows, rfl⟩
  | cons constant consts =>
    refine .inl ⟨_, rfl, rest, ⟨⟨constant, consts, ?_⟩, trivial⟩, rfl⟩
    simp [partSpelling]

theorem complete_constantName : Complete constantName := by
  rintro _ rest scope size ⟨⟨constant, consts, rfl⟩, _⟩
  exact .inl ⟨_, rfl, _, ⟨rfl, trivial⟩, _, ⟨⟨constant.2, consts, rfl⟩, trivial⟩, rfl⟩

theorem complete_constantValue (name : String) : Complete (constantValue name) := by
  rintro _ rest scope size ⟨⟨value, consts, rfl⟩, _⟩
  exact .inl ⟨_, rfl, _, ⟨rfl, trivial⟩, _, ⟨⟨consts, rfl⟩, trivial⟩, rfl⟩

theorem complete_moreConstants : Complete moreConstants := by
  rintro _ rest scope size ⟨⟨consts, rfl⟩, _⟩
  cases consts with
  | nil => exact .inl ⟨_, rfl, _, ⟨rfl, trivial⟩, rfl⟩
  | cons constant consts =>
    refine .inl ⟨_, rfl, rest, ⟨⟨constant, consts, ?_⟩, trivial⟩, rfl⟩
    simp [moreSpelling]

theorem complete_variablePart : Complete variablePart := by
  rintro _ rest scope size ⟨⟨vars, rfl⟩, hfollows⟩
  cases vars with
  | nil => exact .inl ⟨_, if_neg hfollows, _, ⟨rfl, trivial⟩, rfl⟩
  | cons name vars =>
    refine .inl ⟨_, rfl, rest, ⟨⟨name, vars, ?_⟩, trivial⟩, rfl⟩
    simp [partSpelling]

theorem complete_variableName (address : Word) : Complete (variableName address) := by
  rintro _ rest scope size ⟨⟨name, vars, rfl⟩, _⟩
  exact .inl ⟨_, rfl, _, ⟨rfl, trivial⟩, _, ⟨⟨vars, rfl⟩, trivial⟩, rfl⟩

theorem complete_moreVariables (address : Word) : Complete (moreVariables address) := by
  rintro _ rest scope size ⟨⟨vars, rfl⟩, _⟩
  cases vars with
  | nil => exact .inl ⟨_, rfl, _, ⟨rfl, trivial⟩, _, ⟨rfl, trivial⟩, rfl⟩
  | cons name vars =>
    refine .inl ⟨_, rfl, rest, ⟨⟨name, vars, ?_⟩, trivial⟩, rfl⟩
    simp [moreSpelling]

theorem threads_statements (body : Statement .list) (rest : List Token) :
    Threads Takes [statement, moreStatements] (body.spelling ++ .plain .endSym :: rest) rest := by
  cases body with
  | last s => exact ⟨_, ⟨⟨s, rfl⟩, .inr (.inl rfl)⟩, _, ⟨⟨none, rfl⟩, trivial⟩, rfl⟩
  | followed first body =>
    refine ⟨.plain .semicolon :: (body.spelling ++ .plain .endSym :: rest),
      ⟨⟨first, ?_⟩, .inl rfl⟩, rest, ⟨⟨some body, ?_⟩, trivial⟩, rfl⟩
    · simp [Statement.spelling]
    · simp [Statement.moreSpelling]

theorem complete_statement : Complete statement := by
  rintro _ rest scope size ⟨⟨s, rfl⟩, hends⟩
  have hstops := Extent.stops_of_ends hends
  cases s with
  | empty =>
    refine .inl ⟨⟨[], .none, false⟩, ?_, rfl⟩
    unfold firstKind at hends
    rcases hends with hkind | hkind | hkind | hkind <;>
      simp only [move, Statement.spelling, List.nil_append, hkind]
  | assign name value =>
    cases hscope : scope.variable name with
    | error fault =>
      have hmove : statement.move (.ident name) scope size = .error fault := by
        simp only [move, Token.ident, hscope]
      exact .inr ⟨fault, hmove, Scope.isSyntactic_of_variable hscope⟩
    | ok location =>
      have hmove : statement.move (.ident name) scope size =
          .ok ⟨[expect .becomes .becomesExpected, expression, emit (.store location)], .none,
            true⟩ := by
        simp only [move, Token.ident, hscope]
      exact .inl ⟨_, hmove, _, ⟨rfl, trivial⟩, _, ⟨⟨value, rfl⟩, hstops⟩, _, ⟨rfl, trivial⟩, rfl⟩
  | read name => exact .inl ⟨_, rfl, _, ⟨⟨name, rfl⟩, trivial⟩, rfl⟩
  | write value => exact .inl ⟨_, rfl, _, ⟨⟨value, rfl⟩, hstops⟩, _, ⟨rfl, trivial⟩, rfl⟩
  | compound body =>
    refine .inl ⟨_, rfl, ?_⟩
    simpa [Statement.spelling] using threads_statements body rest
  | ifThen condition body =>
    refine .inl ⟨_, rfl, .plain .thenSym :: (body.spelling ++ .plain .fiSym :: rest),
      ⟨⟨condition, ?_⟩, ?_⟩, rest, ⟨⟨body, rfl⟩, trivial⟩, rfl⟩
    · simp [Statement.spelling]
    · exact show Level.expression.Stops .thenSym by decide
  | whileDo condition body =>
    refine .inl ⟨_, rfl, .plain .doSym :: (body.spelling ++ rest), ⟨⟨condition, ?_⟩, ?_⟩, rest,
      ⟨⟨body, rfl⟩, hends⟩, rfl⟩
    · simp [Statement.spelling]
    · exact show Level.expression.Stops .doSym by decide

theorem complete_moreStatements : Complete moreStatements := by
  rintro _ rest scope size ⟨⟨body, rfl⟩, _⟩
  cases body with
  | none => exact .inl ⟨_, rfl, _, ⟨rfl, trivial⟩, rfl⟩
  | some body =>
    refine .inl ⟨_, rfl, ?_⟩
    simpa [Statement.moreSpelling] using threads_statements body rest

theorem complete_readTarget : Complete readTarget := by
  rintro _ rest scope size ⟨⟨name, rfl⟩, _⟩
  exact .inl ⟨_, rfl, _, ⟨rfl, trivial⟩, rfl⟩

theorem complete_receive (name : String) : Complete (receive name) := by
  rintro tokens _ scope size ⟨rfl, _⟩
  cases hscope : scope.variable name with
  | error fault =>
    refine .inr ⟨fault, ?_, Scope.isSyntactic_of_variable hscope⟩
    simp only [move, hscope]
  | ok location =>
    refine .inl ⟨⟨[emit (.system .read), emit (.store location)], .none, false⟩, ?_, _,
      ⟨rfl, trivial⟩, _, ⟨rfl, trivial⟩, rfl⟩
    simp only [move, hscope]

theorem complete_thenPart : Complete thenPart := by
  rintro _ rest scope size ⟨⟨body, rfl⟩, _⟩
  exact .inl ⟨_, rfl, _, ⟨rfl, trivial⟩, _, ⟨⟨body, rfl⟩, .inr (.inr (.inl rfl))⟩, _,
    ⟨rfl, trivial⟩, _, ⟨rfl, trivial⟩, rfl⟩

theorem complete_loopPart (start : Word) : Complete (loopPart start) := by
  rintro _ rest scope size ⟨⟨body, rfl⟩, hends⟩
  exact .inl ⟨_, rfl, _, ⟨rfl, trivial⟩, _, ⟨⟨body, rfl⟩, hends⟩, _, ⟨rfl, trivial⟩, _,
    ⟨rfl, trivial⟩, rfl⟩

theorem complete_condition : Complete condition := by
  rintro _ rest scope size ⟨⟨c, rfl⟩, hstops⟩
  cases c with
  | even operand => exact .inl ⟨_, rfl, _, ⟨⟨operand, rfl⟩, hstops⟩, _, ⟨rfl, trivial⟩, rfl⟩
  | compare left comparison right =>
    refine .inl ⟨⟨[expression, relation], .none, false⟩, if_neg ?_,
      .plain comparison.kind :: (right.spelling ++ rest), ⟨⟨left, ?_⟩, comparison.stops⟩, rest,
      ⟨⟨comparison, right, rfl⟩, hstops⟩, rfl⟩
    · rw [Condition.spelling, List.append_assoc]
      exact left.firstKind_spelling_ne_evenSym _
    · simp [Condition.spelling]

theorem complete_relation : Complete relation := by
  rintro _ rest scope size ⟨⟨comparison, right, rfl⟩, hstops⟩
  refine .inl ⟨⟨[expression, emit (.operate comparison.operation)], .none, true⟩, ?_, _,
    ⟨⟨right, rfl⟩, hstops⟩, _, ⟨rfl, trivial⟩, rfl⟩
  cases comparison <;> rfl

theorem follows_level_iff {level : Level} {kind : Kind} :
    level.task.Follows kind ↔ level.Stops kind := by
  rcases level with _ | (_ | _) <;> rfl

theorem follows_more_iff {tier : Tier} {kind : Kind} :
    tier.more.Follows kind ↔ (Level.chain tier).Stops kind := by
  cases tier <;> rfl

theorem takes_operand {tier : Tier} (operand : Expression tier.operand)
    (more : List (Operator tier × Expression tier.operand)) {rest : List Token}
    (hstops : (Level.chain tier).Stops (firstKind rest)) :
    tier.operand.task.Takes (operand.spelling ++ (Expression.moreSpelling more ++ rest))
        (Expression.moreSpelling more ++ rest) ∧
      tier.more.Takes (Expression.moreSpelling more ++ rest) rest := by
  refine ⟨⟨spans_level_iff.2 ⟨operand, rfl⟩, follows_level_iff.2 ?_⟩,
    spans_more_iff.2 ⟨more, rfl⟩, follows_more_iff.2 hstops⟩
  exact Expression.stops_moreSpelling more (Level.stops_chain_iff.1 hstops).2

theorem complete_chain (tier : Tier) : Complete (Level.chain tier).task := by
  rintro tokens rest scope size ⟨hspans, hfollows⟩
  obtain ⟨e, rfl⟩ := spans_level_iff.1 hspans
  obtain ⟨first, more, rfl⟩ := e.exists_eq_extend
  obtain ⟨hfirst, hmore⟩ := takes_operand first more (follows_level_iff.1 hfollows)
  refine .inl ⟨_, move_chain tier _ scope size, _, ?_, _, hmore, rfl⟩
  simpa [Expression.spelling_extend, Expression.spelling] using hfirst

theorem complete_more (tier : Tier) : Complete tier.more := by
  rintro tokens rest scope size ⟨hspans, hfollows⟩
  have hstops := follows_more_iff.1 hfollows
  obtain ⟨more, rfl⟩ := spans_more_iff.1 hspans
  obtain ⟨operator, hkind, hmove⟩ | ⟨hnone, hmove⟩ :=
    move_more tier ((Expression.moreSpelling more ++ rest).headD .endOfInput) scope size
  · cases more with
    | nil => exact absurd hkind ((Level.stops_chain_iff.1 hstops).1 operator)
    | cons next more =>
      obtain ⟨hoperand, hmore⟩ := takes_operand next.2 more hstops
      refine .inl ⟨_, hmove, _, ?_, _, ⟨rfl, trivial⟩, _, hmore, rfl⟩
      simpa [Expression.moreSpelling] using hoperand
  · cases more with
    | nil => exact .inl ⟨_, hmove, rfl⟩
    | cons next more => exact absurd rfl (hnone next.1)

theorem complete_factor : Complete factor := by
  rintro _ rest scope size ⟨⟨e, rfl⟩, _⟩
  cases e with
  | number value => exact .inl ⟨_, rfl, rfl⟩
  | ident name =>
    cases hscope : scope.fetch name with
    | error fault =>
      have hmove : factor.move (.ident name) scope size = .error fault := by
        simp only [move, Token.ident, hscope]
      exact .inr ⟨fault, hmove, Scope.isSyntactic_of_fetch hscope⟩
    | ok instruction =>
      have hmove : factor.move (.ident name) scope size = .ok ⟨[], .emit instruction, true⟩ := by
        simp only [move, Token.ident, hscope]
      exact .inl ⟨_, hmove, rfl⟩
  | parens inner =>
    refine .inl ⟨_, rfl, .plain .rparen :: rest, ⟨⟨inner, ?_⟩, ?_⟩, rest, ⟨rfl, trivial⟩, rfl⟩
    · simp [Expression.spelling]
    · exact show Level.expression.Stops .rparen by decide

theorem Proper.complete {task : Task} (htask : task.Proper) : task.Complete := by
  cases task with
  | emit | declare | patch =>
    rintro _ rest scope size ⟨rfl, _⟩
    exact .inl ⟨_, rfl, rfl⟩
  | expect kind fault => exact complete_expect kind fault
  | constantPart => exact complete_constantPart
  | constantName => exact complete_constantName
  | constantValue name => exact complete_constantValue name
  | moreConstants => exact complete_moreConstants
  | variablePart => exact complete_variablePart
  | variableName address => exact complete_variableName address
  | moreVariables address => exact complete_moreVariables address
  | statement => exact complete_statement
  | moreStatements => exact complete_moreStatements
  | readTarget => exact complete_readTarget
  | receive name => exact complete_receive name
  | thenPart => exact complete_thenPart
  | loopPart start => exact complete_loopPart start
  | condition => exact complete_condition
  | relation => exact complete_relation
  | expression => exact complete_chain .sum
  | moreTerms => exact complete_more .sum
  | term => exact complete_chain .product
  | moreFactors => exact complete_more .product
  | factor => exact complete_factor
  | finish => cases htask

end Task
end PL0
