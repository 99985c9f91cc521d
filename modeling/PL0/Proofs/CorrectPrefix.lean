import PL0.Proofs.Grammar
import PL0.Proofs.Lookahead

/-!
This module contains the correct prefix property: a pass stops at the first token that no program
can go on with. Whatever the agenda stands for completes the tokens that have been read to a
program, so these are the start of a program. And a pass over a program only fails because of what a
name means or because there is no room, so the start of a program is never refused for its syntax.
-/

namespace PL0

open Token (firstKind)

namespace Cursor

theorem take_tokens (c : Cursor) : c.tokens.take c.position = c.passed.reverse := by
  simp [tokens, position]

theorem rest_advance (c : Cursor) : c.advance.rest = c.rest.tail := by
  rcases c with ⟨passed, _ | ⟨token, rest⟩⟩ <;> rfl

theorem passed_advance {c : Cursor} (h : c.kind ≠ .endOfInput) :
    c.advance.passed = c.current :: c.passed := by
  rcases c with ⟨passed, _ | ⟨token, rest⟩⟩
  · exact absurd rfl h
  · rfl

end Cursor

namespace Task

theorem exists_spans (task : Task) (rest : List Token) : ∃ tokens, task.Spans tokens rest := by
  cases task with
  | emit | declare | patch | receive => exact ⟨_, rfl⟩
  | expect | finish => exact ⟨_, rfl⟩
  | constantPart | moreConstants | variablePart | moreVariables => exact ⟨_, [], rfl⟩
  | constantName => exact ⟨_, ("", 0), [], rfl⟩
  | constantValue => exact ⟨_, 0, [], rfl⟩
  | variableName => exact ⟨_, "", [], rfl⟩
  | statement | thenPart | loopPart => exact ⟨_, .empty, rfl⟩
  | moreStatements => exact ⟨_, none, rfl⟩
  | readTarget => exact ⟨_, "", rfl⟩
  | condition => exact ⟨_, .even (.single (.single (.number 0))), rfl⟩
  | relation => exact ⟨_, .eql, .single (.single (.number 0)), rfl⟩
  | expression => exact ⟨_, .single (.single (.number 0)), rfl⟩
  | term => exact ⟨_, .single (.number 0), rfl⟩
  | moreTerms | moreFactors => exact ⟨_, [], rfl⟩
  | factor => exact ⟨_, .number 0, rfl⟩

theorem exists_threads (agenda : List Task) (rest : List Token) :
    ∃ tokens, Threads Spans agenda tokens rest := by
  induction agenda with
  | nil => exact ⟨rest, rfl⟩
  | cons task agenda ih =>
    obtain ⟨middle, hagenda⟩ := ih
    obtain ⟨tokens, htask⟩ := task.exists_spans middle
    exact ⟨tokens, middle, htask, hagenda⟩

end Task

namespace Pass

/-- Whatever the agenda stands for makes a program of the tokens that have been read. -/
def Viable (p : Pass) : Prop :=
  ∀ tokens, Task.Threads Task.Spans p.agenda tokens [] →
    ∃ program : Program,
      p.session.cursor.passed.reverse.map Token.bare ++ tokens = program.spelling

theorem viable_program (tokens : List Token) (maxSymbols maxCodeLength : Nat) :
    Viable ⟨Task.program, .start ⟨[], tokens⟩ maxSymbols maxCodeLength⟩ := by
  rintro _ ⟨_, rfl, _, ⟨consts, rfl⟩, _, ⟨vars, rfl⟩, _, ⟨body, rfl⟩, _, rfl, rfl⟩
  refine ⟨⟨⟨consts, vars⟩, body⟩, ?_⟩
  simp [Session.start, Program.spelling, Declarations.spelling]

theorem Viable.step {p q : Pass} (hproper : p.Proper) (hstep : p.step = .next q)
    (h : p.agenda ≠ [] → p.Viable) : q.agenda ≠ [] → q.Viable := by
  obtain ⟨task, tasks, move, t, hagenda, htask, _, hmove, happly, rfl⟩ |
    ⟨t, _, _, _, rfl⟩ := hproper.exists_of_step hstep
  · intro _ tokens hthreads
    obtain ⟨middle, hmore, hrest⟩ := Task.threads_append_iff.1 hthreads
    have hbefore : Task.Threads Task.Spans p.agenda
        (if move.reads then p.session.token.bare :: tokens else tokens) [] := by
      rw [hagenda]
      exact ⟨middle, htask.sound hmove hmore, hrest⟩
    obtain ⟨program, hprogram⟩ := h (by simp [hagenda]) _ hbefore
    refine ⟨program, ?_⟩
    rw [← hprogram]
    have hcursor := Effect.cursor_apply happly
    cases hreads : move.reads with
    | false => simp [hcursor]
    | true =>
      have hend := (Task.kind_ne_of_reads htask hmove hreads).2
      simp only [if_true, Session.cursor_advance, hcursor, Cursor.passed_advance hend,
        List.reverse_cons, List.map_append, List.append_assoc]
      rfl
  · intro hne
    exact absurd rfl hne

/-- The tokens ahead can be taken as the agenda wants them. -/
def Readable (p : Pass) : Prop :=
  Task.Threads Task.Takes p.agenda p.session.cursor.rest []

theorem readable_program (program : Program) (maxSymbols maxCodeLength : Nat) :
    Readable ⟨Task.program, .start ⟨[], program.spelling⟩ maxSymbols maxCodeLength⟩ := by
  rcases program with ⟨⟨consts, vars⟩, body⟩
  simp only [Readable, Session.start, Program.spelling, Declarations.spelling, List.append_assoc]
  exact ⟨_, ⟨rfl, trivial⟩, _, ⟨⟨consts, rfl⟩, Program.firstKind_variables_ne vars body rfl⟩, _,
    ⟨⟨vars, rfl⟩, (Program.firstKind_body_ne body rfl).2⟩, _,
    ⟨⟨body, rfl⟩, .inr (.inr (.inr rfl))⟩, _, ⟨rfl, trivial⟩, rfl⟩

theorem Readable.step {p q : Pass} (hproper : p.Proper) (hstep : p.step = .next q)
    (h : p.agenda ≠ [] → p.Readable) : q.agenda ≠ [] → q.Readable := by
  obtain ⟨task, tasks, move, t, hagenda, htask, _, hmove, happly, rfl⟩ |
    ⟨t, _, _, _, rfl⟩ := hproper.exists_of_step hstep
  · intro _
    have hreadable := h (by simp [hagenda])
    rw [Readable, hagenda] at hreadable
    obtain ⟨middle, htakes, hrest⟩ := hreadable
    have hcursor : (if move.reads then t.advance else t).cursor.rest =
        if move.reads then p.session.cursor.rest.tail else p.session.cursor.rest := by
      rw [← Effect.cursor_apply happly]
      cases move.reads with
      | false => rfl
      | true => exact t.cursor.rest_advance
    obtain ⟨move', hmove', hmore⟩ | ⟨fault, hmove', _⟩ :=
      htask.complete p.session.symbols.scope p.session.code.size htakes
    · cases hmove.symm.trans hmove'
      rw [Readable, hcursor]
      exact Task.threads_append_iff.2 ⟨middle, hmore, hrest⟩
    · cases hmove.symm.trans hmove'
  · intro hne
    exact absurd rfl hne

theorem Readable.isSyntactic_of_failed {p : Pass} {fault : Fault} (hproper : p.Proper)
    (h : p.Readable) (hfailed : p.step = .failed (.fault fault)) : fault.isSyntactic = false := by
  obtain ⟨task, rest, hagenda, hperform⟩ := exists_of_failed hfailed
  rw [Readable, hagenda] at h
  obtain ⟨middle, htakes, _⟩ := h
  obtain ⟨fault', hmove, heq⟩ | ⟨move, _, happly⟩ := Task.perform_eq_error_iff.1 hperform
  · cases heq
    obtain htask | rfl := hproper.proper_or_finish hagenda
    · obtain ⟨move, hmove', _⟩ | ⟨fault', hmove', hfault'⟩ :=
        htask.complete p.session.symbols.scope p.session.code.size htakes
      · cases hmove.symm.trans hmove'
      · cases hmove.symm.trans hmove'
        exact hfault'
    · have hkind : p.session.token.kind = .period := by
        rw [Session.token, Cursor.current, show p.session.cursor.rest = _ from htakes.1]
        rfl
      cases hmove.symm.trans (if_pos hkind)
  · generalize move.effect = effect at happly
    cases Effect.fails_of_apply happly
    rfl

theorem isSyntactic_of_run {program : Program} {maxSymbols maxCodeLength : Nat} {fault : Fault}
    {q : Pass}
    (h : run ⟨Task.program, .start ⟨[], program.spelling⟩ maxSymbols maxCodeLength⟩ =
      (.error (.fault fault), q)) : fault.isSyntactic = false := by
  obtain ⟨hproper, hreadable⟩ := (proper_program _).run_of_step
    (fun p => p.agenda ≠ [] → p.Readable) Readable.step h
    (fun _ => readable_program program maxSymbols maxCodeLength)
  obtain ⟨hok, _⟩ | ⟨_, herror, hfailed⟩ := step_of_run h
  · cases hok
  · cases herror
    obtain ⟨task, rest, hagenda, _⟩ := exists_of_failed hfailed
    exact (hreadable (by simp [hagenda])).isSyntactic_of_failed hproper hfailed

variable {tokens : List Token} {maxSymbols maxCodeLength : Nat} {q : Pass}

theorem exists_prefix_of_run {error : CompileError}
    (h : run ⟨Task.program, .start ⟨[], tokens⟩ maxSymbols maxCodeLength⟩ = (.error error, q)) :
    ∃ program : Program,
      (tokens.take q.session.cursor.position).map Token.bare <+: program.spelling := by
  obtain ⟨_, hviable⟩ := (proper_program _).run_of_step (fun p => p.agenda ≠ [] → p.Viable)
    Viable.step h (fun _ => viable_program tokens maxSymbols maxCodeLength)
  have htokens : q.session.cursor.tokens = tokens := tokens_run h
  obtain ⟨hok, _⟩ | ⟨_, _, hfailed⟩ := step_of_run h
  · cases hok
  · obtain ⟨task, rest, hagenda, _⟩ := exists_of_failed hfailed
    obtain ⟨more, hmore⟩ := Task.exists_threads q.agenda []
    obtain ⟨program, hprogram⟩ := hviable (by simp [hagenda]) more hmore
    refine ⟨program, more, ?_⟩
    rw [← hprogram, ← htokens, Cursor.take_tokens]

theorem not_prefix_of_run {fault : Fault} (hfault : fault.isSyntactic = true)
    (h : run ⟨Task.program, .start ⟨[], tokens⟩ maxSymbols maxCodeLength⟩ =
      (.error (.fault fault), q))
    (hlt : q.session.cursor.position < tokens.length) (program : Program) :
    ¬ (tokens.take (q.session.cursor.position + 1)).map Token.bare <+: program.spelling := by
  rintro ⟨more, hspelling⟩
  -- The pass over the program would stop at the same token with the same fault.
  have hagrees : ∀ i ≤ q.session.cursor.position,
      (Token.nth tokens i).Agrees (Token.nth program.spelling i) := by
    intro i hi
    have hnth : Token.nth program.spelling i = (Token.nth tokens i).bare := by
      have hi' : i < tokens.length := Nat.lt_of_le_of_lt hi hlt
      have hlength : i < ((tokens.take (q.session.cursor.position + 1)).map Token.bare).length := by
        simp only [List.length_map, List.length_take]
        omega
      rw [← hspelling, Token.nth, List.getElem?_append_left hlength, List.getElem?_map,
        List.getElem?_take_of_lt (Nat.lt_succ_of_le hi), Token.nth, List.getElem?_eq_getElem hi']
      rfl
    rw [hnth]
    exact Token.agrees_bare _
  obtain ⟨c, hrun, _⟩ := run_withCursor (proper_program _)
    (show (⟨[], program.spelling⟩ : Cursor).position = 0 from rfl) hagrees h
  have hnot : fault.isSyntactic = false := isSyntactic_of_run hrun
  rw [hfault] at hnot
  cases hnot

end Pass

/--
Where a pass stops for a fault of syntax, what it has read is the start of some program, and no
program starts with that and the token at which it stops.
-/
theorem Session.prefix_of_isSyntactic {tokens : List Token} {maxSymbols maxCodeLength : Nat}
    {fault : Fault} {t : Session} (hfault : fault.isSyntactic = true)
    (h : (start ⟨[], tokens⟩ maxSymbols maxCodeLength).pass = (.error (.fault fault), t)) :
    (∃ program : Program, (tokens.take t.cursor.position).map Token.bare <+: program.spelling) ∧
      (t.cursor.position < tokens.length → ¬ ∃ program : Program,
        (tokens.take (t.cursor.position + 1)).map Token.bare <+: program.spelling) := by
  obtain ⟨_, heq, _⟩ | ⟨_, q, hrun, rfl⟩ := pass_cases h
  · cases heq
    cases hfault
  · refine ⟨Pass.exists_prefix_of_run hrun, ?_⟩
    rintro hlt ⟨program, hstart⟩
    exact Pass.not_prefix_of_run hfault hrun hlt program hstart

theorem Session.prefix_of_isSyntactic_loop :
    ∃ t, (start ⟨[], [.plain .whileSym, .number 1, .plain .lss, .number 2, .plain .writeSym,
        .number 3, .plain .period]⟩ 0 9).pass = (.error (.fault .doExpected), t) ∧
      t.cursor.position = 4 ∧
      (∃ program : Program,
        [.plain .whileSym, .number 1, .plain .lss, .number 2] <+: program.spelling) ∧
      ¬ ∃ program : Program,
        [.plain .whileSym, .number 1, .plain .lss, .number 2, .plain .writeSym] <+:
          program.spelling := by
  -- Without its `do` a loop goes on with `write`, where only an operator or `do` could stand.
  let tokens : List Token := [.plain .whileSym, .number 1, .plain .lss, .number 2, .plain .writeSym,
    .number 3, .plain .period]
  have hresult : (start ⟨[], tokens⟩ 0 9).pass.1 = .error (.fault .doExpected) := by decide +kernel
  have hposition : (start ⟨[], tokens⟩ 0 9).pass.2.cursor.position = 4 := by decide +kernel
  have hstart := prefix_of_isSyntactic rfl (Prod.ext hresult rfl)
  rw [hposition] at hstart
  exact ⟨_, Prod.ext hresult rfl, hposition, hstart.1, hstart.2 (by decide)⟩

end PL0
