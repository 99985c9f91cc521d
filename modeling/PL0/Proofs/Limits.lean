import PL0.Proofs.Compilation
import PL0.Proofs.Move

/-!
This module contains what limits do to a compilation: they only limit. A pass that does not run into
a limit goes on in the same way with more room, step by step, and one that runs into a limit tells
its own one. So of two compilations of the same tokens, either both come to the same or one has
exceeded its limits.
-/

namespace PL0

open Except (map_eq_error_iff)

namespace CompileError

/-- Whether the error is that there was no room. -/
def exceedsLimit : CompileError → Bool
  | tooManyTokens _ | symbolTableFull _ | codeOverflow _ => true
  | fault _ | emptyStream | invalidPatch .. => false

end CompileError

namespace Code

def withCapacity (code : Code) (capacity : Nat) : Code :=
  { code with capacity }

theorem emit_withCapacity {code after : Code} {instruction : Instruction} {index capacity : Nat}
    (hle : code.capacity ≤ capacity) (h : code.emit instruction = .ok (index, after)) :
    (code.withCapacity capacity).emit instruction = .ok (index, after.withCapacity capacity) := by
  rw [emit_eq_ok_iff] at h ⊢
  obtain ⟨hroom, rfl, rfl⟩ := h
  exact ⟨Nat.lt_of_lt_of_le hroom hle, rfl, rfl⟩

theorem patch_withCapacity (code : Code) (index : Nat) (target : Word) (capacity : Nat) :
    (code.withCapacity capacity).patch index target =
      (code.patch index target).map fun r => (r.1, r.2.withCapacity capacity) := by
  simp only [patch, withCapacity]
  split
  · rfl
  · split
    · rfl
    · split <;> rfl

end Code

namespace SymbolTable

def withCapacity (table : SymbolTable) (capacity : Nat) : SymbolTable :=
  { table with capacity }

theorem declare_withCapacity {table after : SymbolTable} {symbol : Symbol} {id capacity : Nat}
    (hle : table.capacity ≤ capacity) (h : table.declare symbol = .ok (id, after)) :
    (table.withCapacity capacity).declare symbol = .ok (id, after.withCapacity capacity) := by
  rw [declare_eq_ok_iff] at h ⊢
  obtain ⟨hfresh, hroom, rfl, rfl⟩ := h
  exact ⟨hfresh, Nat.lt_of_lt_of_le hroom hle, rfl, rfl⟩

end SymbolTable

namespace Session

/-- The session with room for so many symbols and so much code. -/
def withLimits (s : Session) (maxSymbols maxCodeLength : Nat) : Session :=
  { s with
    symbols := s.symbols.withCapacity maxSymbols
    code := s.code.withCapacity maxCodeLength }

end Session

variable {maxSymbols maxCodeLength : Nat}

theorem Effect.apply_withLimits {effect : Effect} {s : Session}
    (hsymbols : s.symbols.capacity ≤ maxSymbols) (hcode : s.code.capacity ≤ maxCodeLength)
    (hlimit : ∀ error, effect.apply s = .error error → error.exceedsLimit = false) :
    effect.apply (s.withLimits maxSymbols maxCodeLength) =
      (effect.apply s).map (·.withLimits maxSymbols maxCodeLength) := by
  cases h : effect.apply s with
  | ok t =>
    apply apply_eq_ok_iff.2
    cases apply_eq_ok_iff.1 h with
    | none => exact .none
    | emit hemit => exact .emit (Code.emit_withCapacity hcode hemit)
    | declare hdeclare => exact .declare (SymbolTable.declare_withCapacity hsymbols hdeclare)
    | @patch index _ _ hpatch =>
      have hpatch' := s.code.patch_withCapacity index s.code.nextAddress maxCodeLength
      rw [hpatch] at hpatch'
      exact .patch hpatch'
    | close hemit => exact .close (Code.emit_withCapacity hcode hemit)
  | error error =>
    have herror := hlimit error h
    cases fails_of_apply h with
    | emit | close | declare => cases herror
    | @duplicate symbol hfound =>
      apply map_eq_error_iff.2
      unfold SymbolTable.declare
      exact if_pos hfound
    | @patch index cause hpatch =>
      apply map_eq_error_iff.2
      have hpatch' := s.code.patch_withCapacity index s.code.nextAddress maxCodeLength
      rw [hpatch] at hpatch'
      exact hpatch'

theorem Effect.capacity_apply {effect : Effect} {s t : Session} (h : effect.apply s = .ok t) :
    t.symbols.capacity = s.symbols.capacity ∧ t.code.capacity = s.code.capacity := by
  cases apply_eq_ok_iff.1 h with
  | none => exact ⟨rfl, rfl⟩
  | emit hemit | close hemit =>
    obtain ⟨_, _, rfl⟩ := Code.emit_eq_ok_iff.1 hemit
    exact ⟨rfl, rfl⟩
  | declare hdeclare =>
    obtain ⟨_, _, _, rfl⟩ := SymbolTable.declare_eq_ok_iff.1 hdeclare
    exact ⟨rfl, rfl⟩
  | patch hpatch =>
    obtain ⟨_, _, _, _, _, rfl⟩ := Code.patch_eq_ok_iff.1 hpatch
    exact ⟨rfl, rfl⟩

theorem Task.perform_withLimits {task : Task} {s : Session}
    (hsymbols : s.symbols.capacity ≤ maxSymbols) (hcode : s.code.capacity ≤ maxCodeLength)
    (hlimit : ∀ error, task.perform s = .error error → error.exceedsLimit = false) :
    task.perform (s.withLimits maxSymbols maxCodeLength) =
      (task.perform s).map fun r => (r.1, r.2.withLimits maxSymbols maxCodeLength) := by
  have hmove : task.move (s.withLimits maxSymbols maxCodeLength).token
      (s.withLimits maxSymbols maxCodeLength).symbols.scope
      (s.withLimits maxSymbols maxCodeLength).code.size =
        task.move s.token s.symbols.scope s.code.size := rfl
  rw [perform_eq, perform_eq, hmove]
  rw [perform_eq] at hlimit
  cases hplan : task.move s.token s.symbols.scope s.code.size with
  | error fault => rfl
  | ok move =>
    rw [hplan] at hlimit
    have happly : move.effect.apply (s.withLimits maxSymbols maxCodeLength) =
        (move.effect.apply s).map (·.withLimits maxSymbols maxCodeLength) := by
      apply Effect.apply_withLimits hsymbols hcode
      intro error herror
      apply hlimit error
      exact map_eq_error_iff.2 herror
    simp only [carryOut, Move.perform, happly]
    cases move.effect.apply s with
    | error error => rfl
    | ok t => cases hreads : move.reads <;> rfl

namespace Pass

def withLimits (p : Pass) (maxSymbols maxCodeLength : Nat) : Pass :=
  ⟨p.agenda, p.session.withLimits maxSymbols maxCodeLength⟩

theorem capacity_step {p q : Pass} (h : p.step = .next q) :
    q.session.symbols.capacity = p.session.symbols.capacity ∧
      q.session.code.capacity = p.session.code.capacity := by
  obtain ⟨task, rest, more, t, _, hperform, rfl⟩ := exists_of_step h
  obtain ⟨move, u, _, happly, _, rfl⟩ := Task.perform_eq_ok_iff.1 hperform
  have hcapacity := Effect.capacity_apply happly
  cases move.reads <;> exact hcapacity

theorem capacity_run {p q : Pass} {result : Except CompileError Unit} (h : p.run = (result, q)) :
    q.session.symbols.capacity = p.session.symbols.capacity ∧
      q.session.code.capacity = p.session.code.capacity := by
  refine run_of_step (fun q => q.session.symbols.capacity = p.session.symbols.capacity ∧
    q.session.code.capacity = p.session.code.capacity) ?_ h ⟨rfl, rfl⟩
  intro p' q' hnext hp'
  rw [(capacity_step hnext).1, (capacity_step hnext).2]
  exact hp'

/-- There is no less room in the second pass, and else they are the same. -/
structure Widens (maxSymbols maxCodeLength : Nat) (p p' : Pass) : Prop where
  symbols : p.session.symbols.capacity ≤ maxSymbols
  code : p.session.code.capacity ≤ maxCodeLength
  eq : p' = p.withLimits maxSymbols maxCodeLength

theorem Widens.matches_step {p p' : Pass} (h : Widens maxSymbols maxCodeLength p p')
    (hlimit : ∀ error, p.step = .failed error → error.exceedsLimit = false) :
    Step.Matches (Widens maxSymbols maxCodeLength) p.step p'.step := by
  obtain ⟨hsymbols, hcode, rfl⟩ := h
  rcases p with ⟨_ | ⟨task, rest⟩, s⟩
  · exact .done
  · have hperform : task.perform (s.withLimits maxSymbols maxCodeLength) =
        (task.perform s).map fun r => (r.1, r.2.withLimits maxSymbols maxCodeLength) := by
      apply Task.perform_withLimits hsymbols hcode
      intro error herror
      exact hlimit error (step_of_error herror)
    cases h : task.perform s with
    | error error =>
      rw [h] at hperform
      rw [step_of_error h, withLimits, step_of_error hperform]
      exact .failed error
    | ok r =>
      have hnext : step ⟨task :: rest, s⟩ = .next ⟨r.1 ++ rest, r.2⟩ := step_of_ok h
      have hcapacity := capacity_step hnext
      rw [h] at hperform
      rw [hnext, withLimits, step_of_ok hperform]
      exact .next ⟨hcapacity.1 ▸ hsymbols, hcapacity.2 ▸ hcode, rfl⟩

theorem run_withLimits {p q : Pass} {result : Except CompileError Unit}
    (hsymbols : p.session.symbols.capacity ≤ maxSymbols)
    (hcode : p.session.code.capacity ≤ maxCodeLength) (hrun : p.run = (result, q))
    (hlimit : ∀ error, result = .error error → error.exceedsLimit = false) :
    (p.withLimits maxSymbols maxCodeLength).run =
      (result, q.withLimits maxSymbols maxCodeLength) := by
  have hstep : ∀ {p p' : Pass}, p.run = (result, q) → Widens maxSymbols maxCodeLength p p' →
      Step.Matches (Widens maxSymbols maxCodeLength) p.step p'.step := by
    intro p p' hrun hwidens
    apply hwidens.matches_step
    intro error hfailed
    rw [run_eq_of_failed hfailed] at hrun
    cases hrun
    exact hlimit error rfl
  obtain ⟨_, hrun', hwidens⟩ := run_of_matches hstep hrun ⟨hsymbols, hcode, rfl⟩
  rw [hrun', hwidens.eq]

end Pass

namespace Session

variable {s t : Session} {result : Except CompileError Unit}

theorem pass_withLimits (hsymbols : s.symbols.capacity ≤ maxSymbols)
    (hcode : s.code.capacity ≤ maxCodeLength) (h : s.pass = (result, t))
    (hlimit : ∀ error, result = .error error → error.exceedsLimit = false) :
    (s.withLimits maxSymbols maxCodeLength).pass =
      (result, t.withLimits maxSymbols maxCodeLength) := by
  obtain ⟨hskip, rfl, rfl⟩ | ⟨hskip, q, hrun, rfl⟩ := pass_cases h
  · exact if_pos hskip
  · have hrun' := Pass.run_withLimits hsymbols hcode hrun hlimit
    exact pass_of_run (s := s.withLimits maxSymbols maxCodeLength) hskip hrun'

theorem error_of_exceedsLimit {error : CompileError} (h : s.pass = (.error error, t))
    (hlimit : error.exceedsLimit = true) :
    error = .symbolTableFull s.symbols.capacity ∨ error = .codeOverflow s.code.capacity := by
  obtain ⟨_, herror, _⟩ | ⟨_, q, hrun, rfl⟩ := pass_cases h
  · cases herror
    cases hlimit
  · have hcapacity := Pass.capacity_run hrun
    obtain ⟨hok, _⟩ | ⟨_, herror, hfailed⟩ := Pass.step_of_run hrun
    · cases hok
    · cases herror
      obtain ⟨task, rest, _, hperform⟩ := Pass.exists_of_failed hfailed
      obtain ⟨fault, _, rfl⟩ | ⟨move, _, happly⟩ := Task.perform_eq_error_iff.1 hperform
      · cases hlimit
      · rw [← hcapacity.1, ← hcapacity.2]
        generalize move.effect = effect at happly
        cases Effect.fails_of_apply happly with
        | emit | close => exact .inr rfl
        | declare => exact .inl rfl
        | duplicate | patch => cases hlimit

end Session

section Compilation

variable {tokens : List Token} {limits limits' : Limits}

theorem Cursor.ofTokens_eq_error {limit : Nat} {error : CompileError}
    (h : ofTokens tokens limit = .error error) :
    (tokens = [] ∧ error = .emptyStream) ∨ error = .tooManyTokens limit := by
  unfold ofTokens at h
  split at h
  · next hempty =>
    cases h
    exact .inl ⟨List.isEmpty_iff.1 hempty, rfl⟩
  · split at h
    · cases h
      exact .inr rfl
    · cases h

theorem compile_eq_of_le (hsymbols : limits.maxSymbols ≤ limits'.maxSymbols)
    (hcode : limits.maxCodeLength ≤ limits'.maxCodeLength)
    (htokens : limits.maxTokens ≤ limits'.maxTokens)
    (hlimit : ∀ error, (compile tokens limits).result = .error error → error.exceedsLimit = false) :
    compile tokens limits' = compile tokens limits := by
  unfold compile at *
  cases hcursor : Cursor.ofTokens tokens limits.maxTokens with
  | error error =>
    rw [hcursor] at hlimit
    obtain ⟨rfl, rfl⟩ | rfl := Cursor.ofTokens_eq_error hcursor
    · rfl
    · cases hlimit _ rfl
  | ok cursor =>
    obtain ⟨hempty, hlength, rfl⟩ := Cursor.ofTokens_eq_ok_iff.1 hcursor
    have hcursor' := Cursor.ofTokens_eq_ok_iff.2 ⟨hempty, Nat.le_trans hlength htokens, rfl⟩
    rw [hcursor] at hlimit
    rw [hcursor']
    simp only at hlimit ⊢
    rcases hpass : (Session.start ⟨[], tokens⟩ limits.maxSymbols limits.maxCodeLength).pass with
      ⟨result, t⟩
    rw [hpass] at hlimit
    have hpass' := Session.pass_withLimits hsymbols hcode hpass (by
      rintro error rfl
      exact hlimit error rfl)
    have hstart : (Session.start ⟨[], tokens⟩ limits.maxSymbols limits.maxCodeLength).withLimits
        limits'.maxSymbols limits'.maxCodeLength =
          .start ⟨[], tokens⟩ limits'.maxSymbols limits'.maxCodeLength := rfl
    rw [hstart] at hpass'
    rw [hpass']
    cases result <;> rfl

theorem compile_eq_compile
    (h : ∀ error, (compile tokens limits).result = .error error → error.exceedsLimit = false)
    (h' : ∀ error, (compile tokens limits').result = .error error → error.exceedsLimit = false) :
    compile tokens limits = compile tokens limits' := by
  -- Both are the same with limits that are not less than either of the two.
  let larger : Limits :=
    ⟨max limits.maxSymbols limits'.maxSymbols, max limits.maxCodeLength limits'.maxCodeLength,
      max limits.maxTokens limits'.maxTokens⟩
  calc compile tokens limits
      _ = compile tokens larger :=
        (compile_eq_of_le (Nat.le_max_left ..) (Nat.le_max_left ..) (Nat.le_max_left ..) h).symm
      _ = compile tokens limits' :=
        compile_eq_of_le (Nat.le_max_right ..) (Nat.le_max_right ..) (Nat.le_max_right ..) h'

theorem error_of_compile {error : CompileError} (h : (compile tokens limits).result = .error error)
    (hlimit : error.exceedsLimit = true) :
    error = .tooManyTokens limits.maxTokens ∨ error = .symbolTableFull limits.maxSymbols ∨
      error = .codeOverflow limits.maxCodeLength := by
  unfold compile at h
  split at h
  · next hcursor =>
    cases h
    obtain ⟨_, rfl⟩ | rfl := Cursor.ofTokens_eq_error hcursor
    · cases hlimit
    · exact .inl rfl
  · split at h
    · next hpass =>
      cases h
      exact .inr (Session.error_of_exceedsLimit hpass hlimit)
    · cases h

theorem compile_eq_ok_iff_of_compile {p : TargetProgram}
    (h : (compile tokens limits').result = .ok p) :
    (compile tokens limits).result = .ok p ↔
      tokens.length ≤ limits.maxTokens ∧ p.symbols.length ≤ limits.maxSymbols ∧
        p.code.length ≤ limits.maxCodeLength := by
  obtain ⟨_, hskip, program, hspelled, hscoped, _, rfl⟩ := compile_eq_ok_iff_program.1 h
  have hsymbols : program.target.symbols.length = program.declarations.names.length := by
    rw [← Declarations.map_name_symbols program.declarations true, List.length_map]
    rfl
  rw [compile_eq_ok_iff_program, hsymbols]
  constructor
  · rintro ⟨hlength, _, program', hspelled', _, hfits, _⟩
    rw [Program.eq_of_spelledBy hspelled' hspelled] at hfits
    exact ⟨hlength, hfits.symbols, hfits.code⟩
  · rintro ⟨hlength, hsymbols, hcode⟩
    exact ⟨hlength, hskip, program, hspelled, hscoped, ⟨hsymbols, hcode⟩, rfl⟩

/--
A program that compiles with some limits compiles to the same with other limits exactly if its
tokens, its symbols and its code are within them, and else the limit that was exceeded is told.
Whatever does not exceed a limit comes to the same with limits that are not less.
-/
theorem compile_limits (tokens : List Token) (limits limits' : Limits) :
    (∀ p, (compile tokens limits').result = .ok p →
      ((compile tokens limits).result = .ok p ↔
        tokens.length ≤ limits.maxTokens ∧ p.symbols.length ≤ limits.maxSymbols ∧
          p.code.length ≤ limits.maxCodeLength) ∧
      ((compile tokens limits).result ≠ .ok p →
        (compile tokens limits).result = .error (.tooManyTokens limits.maxTokens) ∨
        (compile tokens limits).result = .error (.symbolTableFull limits.maxSymbols) ∨
        (compile tokens limits).result = .error (.codeOverflow limits.maxCodeLength))) ∧
    ((∀ error, (compile tokens limits).result = .error error → error.exceedsLimit = false) →
      limits.maxSymbols ≤ limits'.maxSymbols → limits.maxCodeLength ≤ limits'.maxCodeLength →
      limits.maxTokens ≤ limits'.maxTokens → compile tokens limits' = compile tokens limits) := by
  refine ⟨?_, fun hlimit hsymbols hcode htokens =>
    compile_eq_of_le hsymbols hcode htokens hlimit⟩
  intro p h
  refine ⟨compile_eq_ok_iff_of_compile h, ?_⟩
  intro hne
  by_cases hlimit : ∃ error, (compile tokens limits).result = .error error ∧
      error.exceedsLimit = true
  · obtain ⟨error, herror, hexceeds⟩ := hlimit
    rw [herror]
    simpa only [Except.error.injEq] using error_of_compile herror hexceeds
  · exfalso
    apply hne
    have hwithin : ∀ error, (compile tokens limits).result = .error error →
        error.exceedsLimit = false := by
      intro error herror
      rw [← Bool.not_eq_true]
      intro hexceeds
      exact hlimit ⟨error, herror, hexceeds⟩
    have hwithin' : ∀ error, (compile tokens limits').result = .error error →
        error.exceedsLimit = false := by simp [h]
    rw [compile_eq_compile hwithin hwithin', h]

theorem compile_limits_countdown :
    (compile Program.countdown.spelling ⟨2, 16, 29⟩).result = .ok Program.countdown.target ∧
      (compile Program.countdown.spelling ⟨2, 15, 29⟩).result ≠ .ok Program.countdown.target ∧
        compile Program.countdown.spelling {} = compile Program.countdown.spelling ⟨2, 16, 29⟩ := by
  refine ⟨compile_countdown, ?_, ?_⟩
  · obtain ⟨hiff, _⟩ := (compile_limits _ ⟨2, 15, 29⟩ ⟨2, 16, 29⟩).1 _ compile_countdown
    rw [ne_eq, hiff]
    decide
  · apply (compile_limits _ ⟨2, 16, 29⟩ {}).2
    · intro error herror
      rw [compile_countdown] at herror
      cases herror
    all_goals decide

end Compilation
end PL0
