import PL0.Proofs.CodeSize
import PL0.Proofs.Limits

/-!
This module contains the bounds of code and symbols by the tokens that have been read. Each symbol
takes two tokens of its own, the one in front of its name and the name. A limit that exceeds the
bounds is never reached.
-/

namespace PL0

theorem Cursor.position_le_length (c : Cursor) : c.position ≤ c.tokens.length := by
  rw [← c.position_add_length_rest]
  exact Nat.le_add_right _ _

theorem Cursor.position_lt_length {c : Cursor} (h : c.kind ≠ .endOfInput) :
    c.position < c.tokens.length := by
  have hposition := c.position_add_length_rest
  have hrest := Cursor.length_rest_advance h
  omega

namespace Effect

/-- The number of symbols that are entered. -/
def enters : Effect → Nat
  | declare _ => 1
  | none | emit _ | patch _ | close => 0

theorem size_symbols_apply {effect : Effect} {s t : Session} (h : effect.apply s = .ok t) :
    t.symbols.size = s.symbols.size + effect.enters := by
  cases apply_eq_ok_iff.1 h with
  | none | emit | patch => rfl
  | declare hdeclare =>
    obtain ⟨_, _, _, rfl⟩ := SymbolTable.declare_eq_ok_iff.1 hdeclare
    rfl
  | close => exact List.length_map _

end Effect

namespace Task

/--
How many tokens have been read for the symbols that the tasks from here on declare, if it is `n`
behind the task.
-/
def begun (task : Task) (n : Nat) : Nat :=
  match task with
  | constantName | variableName _ => n + 1
  | constantValue _ | declare _ => n + 2
  | emit _ | expect .. | patch _ | constantPart | moreConstants | variablePart | moreVariables _
  | statement | moreStatements | readTarget | receive _ | thenPart | loopPart _ | condition
  | relation | expression | moreTerms | term | moreFactors | factor | finish => n

theorem begun_move {task : Task} {token : Token} {scope : Scope} {size : Nat} {move : Move}
    (h : task.move token scope size = .ok move) (n : Nat) :
    move.more.foldr begun n + 2 * move.effect.enters ≤ task.begun n + move.reads.toNat := by
  revert h
  fun_cases Task.move task token scope size
  all_goals
    rintro ⟨⟩
    try simp [begun, Effect.enters]

theorem eq_declare_of_effect {task : Task} {token : Token} {scope : Scope} {size : Nat}
    {move : Move} {symbol : Symbol} (h : task.move token scope size = .ok move)
    (heffect : move.effect = .declare symbol) : task = declare symbol := by
  revert h heffect
  fun_cases Task.move task token scope size
  all_goals
    rintro ⟨⟩ ⟨⟩
    try rfl

end Task

namespace Pass

/-- Two tokens have been read for each symbol, apart from those that have been read for the next. -/
def Spaced (p : Pass) : Prop :=
  2 * p.session.symbols.size + p.agenda.foldr Task.begun 0 ≤ p.session.cursor.position

theorem Spaced.step {p q : Pass} (hproper : p.Proper) (hstep : p.step = .next q) (h : p.Spaced) :
    q.Spaced := by
  unfold Spaced at *
  obtain ⟨task, tasks, move, t, hagenda, htask, _, hmove, happly, rfl⟩ |
    ⟨t, hagenda, _, happly, rfl⟩ := hproper.exists_of_step hstep
  all_goals
    have hsize := Effect.size_symbols_apply happly
    have hcursor := Effect.cursor_apply happly
    rw [hagenda] at h
  · have hbegun := Task.begun_move hmove ((tasks ++ [Task.finish]).foldr Task.begun 0)
    rw [List.foldr_cons] at h
    rw [List.foldr_append, Session.symbols_read]
    cases hreads : move.reads with
    | false =>
      simp only [hreads, Bool.toNat_false, Bool.false_eq_true, if_false, hcursor] at hbegun ⊢
      omega
    | true =>
      have hposition := Cursor.position_advance (Task.kind_ne_of_reads htask hmove hreads).2
      simp only [hreads, Bool.toNat_true, if_true, Session.cursor_advance, hcursor,
        hposition] at hbegun ⊢
      omega
  · simp only [List.foldr_cons, List.foldr_nil, Task.begun, Effect.enters, hcursor] at h hsize ⊢
    omega

theorem Paid.capacity_of_codeOverflow {p : Pass} {limit : Nat} (hproper : p.Proper) (h : p.Paid)
    (hfailed : p.step = .failed (.codeOverflow limit)) :
    p.session.code.capacity < p.session.cursor.tokens.length + 2 := by
  obtain ⟨task, rest, hagenda, hperform⟩ := exists_of_failed hfailed
  obtain ⟨_, _, herror⟩ | ⟨move, hmove, happly⟩ := Task.perform_eq_error_iff.1 hperform
  · cases herror
  · have hfull : p.session.code.capacity ≤ p.session.code.size ∧ move.effect.emits = 1 := by
      generalize move.effect = effect at happly
      cases Effect.fails_of_apply happly with
      | emit instruction hfull => exact ⟨hfull, rfl⟩
      | close hfull => exact ⟨hfull, rfl⟩
    have hposition := p.session.cursor.position_le_length
    unfold Paid owed at h
    rw [hagenda] at h
    simp only [Task.owed, List.foldr_cons, reduceCtorEq, if_false] at h
    obtain htask | rfl := hproper.proper_or_finish hagenda
    · have howes := Task.owes_move htask hmove (Task.owed rest)
      rw [hfull.2] at howes
      cases hreads : move.reads with
      | false =>
        simp only [hreads, Bool.toNat_false, Task.owed] at howes
        omega
      | true =>
        have hlt := Cursor.position_lt_length (Task.kind_ne_of_reads htask hmove hreads).2
        simp only [hreads, Bool.toNat_true, Task.owed] at howes
        omega
    · -- The end of the program is a token that has not been read.
      have hkind : p.session.cursor.kind ≠ .endOfInput := by
        simp only [Task.move] at hmove
        split at hmove
        · next hperiod =>
          rw [show p.session.cursor.kind = .period from hperiod]
          decide
        · cases hmove
      have hlt := Cursor.position_lt_length hkind
      simp only [Task.owes] at h
      omega

theorem Spaced.capacity_of_symbolTableFull {p : Pass} {limit : Nat} (h : p.Spaced)
    (hfailed : p.step = .failed (.symbolTableFull limit)) :
    p.session.symbols.capacity < p.session.cursor.tokens.length / 2 := by
  obtain ⟨task, rest, hagenda, hperform⟩ := exists_of_failed hfailed
  obtain ⟨_, _, herror⟩ | ⟨move, hmove, happly⟩ := Task.perform_eq_error_iff.1 hperform
  · cases herror
  · have hposition := p.session.cursor.position_le_length
    unfold Spaced at h
    rw [hagenda, List.foldr_cons] at h
    generalize heffect : move.effect = effect at happly
    cases Effect.fails_of_apply happly with
    | declare hfresh hfull =>
      rw [Task.eq_declare_of_effect hmove heffect] at h
      simp only [Task.begun] at h
      omega

theorem spaced_of_run {tokens : List Token} {maxSymbols maxCodeLength : Nat} {q : Pass}
    {result : Except CompileError Unit}
    (h : run ⟨Task.program, .start ⟨[], tokens⟩ maxSymbols maxCodeLength⟩ = (result, q)) :
    q.Spaced := by
  refine ((proper_program _).run_of_step Spaced Spaced.step h ?_).2
  simp [Spaced, Task.program, Task.begun, Session.start, SymbolTable.empty, SymbolTable.size]

end Pass

namespace Session

variable {tokens : List Token} {maxSymbols maxCodeLength : Nat}
  {result : Except CompileError Unit} {t : Session}

theorem two_mul_size_symbols_le_of_pass
    (h : (start ⟨[], tokens⟩ maxSymbols maxCodeLength).pass = (result, t)) :
    2 * t.symbols.size ≤ t.cursor.position := by
  obtain ⟨_, _, rfl⟩ | ⟨_, q, hrun, rfl⟩ := pass_cases h
  · exact Nat.le_refl _
  · have hspaced := Pass.spaced_of_run hrun
    unfold Pass.Spaced at hspaced
    omega

theorem size_code_le_position_of_pass
    (h : (start ⟨[], tokens⟩ maxSymbols maxCodeLength).pass = (result, t)) :
    t.code.size ≤ t.cursor.position + 3 ∧
      ∀ error, result = .error error → t.code.size ≤ t.cursor.position + 2 := by
  -- The last of the three instructions that no token is read for is for the end of the program.
  obtain ⟨_, _, rfl⟩ | ⟨_, q, hrun, rfl⟩ := pass_cases h
  · exact ⟨Nat.zero_le _, fun _ _ => Nat.zero_le _⟩
  · obtain ⟨_, hpaid⟩ := Pass.paid_of_run hrun
    unfold Pass.Paid Pass.owed at hpaid
    refine ⟨by omega, ?_⟩
    rintro error rfl
    obtain ⟨hok, _⟩ | ⟨_, _, hfailed⟩ := Pass.step_of_run hrun
    · cases hok
    · obtain ⟨task, rest, hagenda, _⟩ := Pass.exists_of_failed hfailed
      simp only [hagenda, reduceCtorEq, if_false] at hpaid
      omega

theorem room_of_pass {error : CompileError}
    (h : (start ⟨[], tokens⟩ maxSymbols maxCodeLength).pass = (.error error, t)) :
    (∀ limit, error = .codeOverflow limit → maxCodeLength < tokens.length + 2) ∧
      ∀ limit, error = .symbolTableFull limit → maxSymbols < tokens.length / 2 := by
  obtain ⟨_, herror, _⟩ | ⟨_, q, hrun, rfl⟩ := pass_cases h
  · cases herror
    constructor <;> rintro limit ⟨⟩
  · obtain ⟨hproper, hpaid⟩ := Pass.paid_of_run hrun
    have hspaced := Pass.spaced_of_run hrun
    have htokens : q.session.cursor.tokens = tokens := Pass.tokens_run hrun
    obtain ⟨hsymbols, hcode⟩ := Pass.capacity_run hrun
    obtain ⟨hok, _⟩ | ⟨_, herror, hfailed⟩ := Pass.step_of_run hrun
    · cases hok
    · cases herror
      constructor
      · rintro limit rfl
        have hroom := hpaid.capacity_of_codeOverflow hproper hfailed
        rw [hcode, htokens] at hroom
        exact hroom
      · rintro limit rfl
        have hroom := hspaced.capacity_of_symbolTableFull hfailed
        rw [hsymbols, htokens] at hroom
        exact hroom

end Session

section Compilation

variable {tokens : List Token} {limits : Limits}

theorem exists_pass_of_compile_eq_error {error : CompileError}
    (h : (compile tokens limits).result = .error error) :
    Cursor.ofTokens tokens limits.maxTokens = .error error ∨
      (tokens.length ≤ limits.maxTokens ∧
        ∃ t, (Session.initial tokens limits).pass = (.error error, t)) := by
  cases hcursor : Cursor.ofTokens tokens limits.maxTokens with
  | error error' =>
    rw [compile_of_error hcursor] at h
    cases h
    exact .inl rfl
  | ok cursor =>
    obtain ⟨_, hlength, rfl⟩ := Cursor.ofTokens_eq_ok_iff.1 hcursor
    rcases hpass : (Session.initial tokens limits).pass with ⟨result, t⟩
    rw [compile_of_pass hcursor hpass] at h
    rw [Except.map_eq_error_iff.1 h]
    exact .inr ⟨hlength, t, rfl⟩

theorem compile_ne_codeOverflow (hcode : tokens.length + 2 ≤ limits.maxCodeLength) (limit : Nat) :
    (compile tokens limits).result ≠ .error (.codeOverflow limit) := by
  intro h
  obtain hcursor | ⟨_, t, hpass⟩ := exists_pass_of_compile_eq_error h
  · obtain ⟨_, herror⟩ | herror := Cursor.ofTokens_eq_error hcursor <;> cases herror
  · have hroom := (Session.room_of_pass hpass).1 limit rfl
    omega

theorem compile_ne_symbolTableFull
    (hsymbols : min tokens.length limits.maxTokens / 2 ≤ limits.maxSymbols) (limit : Nat) :
    (compile tokens limits).result ≠ .error (.symbolTableFull limit) := by
  -- Only as many tokens matter as the limit for them allows.
  intro h
  obtain hcursor | ⟨hlength, t, hpass⟩ := exists_pass_of_compile_eq_error h
  · obtain ⟨_, herror⟩ | herror := Cursor.ofTokens_eq_error hcursor <;> cases herror
  · have hroom := (Session.room_of_pass hpass).2 limit rfl
    rw [Nat.min_eq_left hlength] at hsymbols
    omega

end Compilation
end PL0
