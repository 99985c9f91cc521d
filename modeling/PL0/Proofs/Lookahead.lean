import PL0.Proofs.Move

/-!
This module contains what a pass depends on: on the tokens up to the one at which it stops, and of
them only on what their kind makes use of. A pass over other tokens that agree so far takes the same
steps and stops at the same position. It does not get beyond a period or an end of input.
-/

namespace PL0

namespace Token

/-- The tokens are of one kind, and have the same name or value if their kind makes use of it. -/
structure Agrees (token other : Token) : Prop where
  kind : token.kind = other.kind
  lexeme : token.kind = .ident → token.lexeme = other.lexeme
  value : token.kind = .number → token.value = other.value

theorem Agrees.bare {token other : Token} (h : token.Agrees other) : token.bare = other.bare := by
  unfold Token.bare
  rw [← h.kind]
  cases hkind : token.kind with
  | ident => rw [h.lexeme hkind]
  | number => rw [h.value hkind]
  | _ => rfl

theorem agrees_bare (token : Token) : token.Agrees token.bare := by
  refine ⟨token.kind_bare.symm, ?_, ?_⟩
  · intro hkind
    rw [bare_eq_ident_iff.2 ⟨hkind, rfl⟩]
    rfl
  · intro hkind
    rw [bare_eq_number_iff.2 ⟨hkind, rfl⟩]
    rfl

instance (token other : Token) : Decidable (token.Agrees other) :=
  decidable_of_iff
    (token.kind = other.kind ∧ (token.kind = .ident → token.lexeme = other.lexeme) ∧
      (token.kind = .number → token.value = other.value))
    ⟨fun ⟨hkind, hlexeme, hvalue⟩ => ⟨hkind, hlexeme, hvalue⟩, fun h => ⟨h.1, h.2, h.3⟩⟩

/-- The token at a position, which is an end of input behind the last one. -/
def nth (tokens : List Token) (i : Nat) : Token :=
  tokens[i]?.getD endOfInput

end Token

namespace Cursor

theorem current_eq (c : Cursor) : c.current = Token.nth c.tokens c.position := by
  unfold current Token.nth tokens position
  rw [List.getElem?_append_right (by simp)]
  simp [List.headD_eq_head?_getD, List.head?_eq_getElem?]

theorem bare_current_eq {c c' : Cursor} (hposition : c'.position = c.position)
    (h : (Token.nth c.tokens c.position).Agrees (Token.nth c'.tokens c.position)) :
    c'.current.bare = c.current.bare := by
  rw [current_eq, current_eq, hposition]
  exact h.bare.symm

theorem mem_passed_advance {c : Cursor} {token : Token} (h : token ∈ c.advance.passed) :
    token ∈ c.passed ∨ token = c.current := by
  rcases c with ⟨passed, _ | ⟨first, rest⟩⟩
  · exact .inl h
  · cases List.mem_cons.1 h with
    | inl heq => exact .inr heq
    | inr hmem => exact .inl hmem

theorem position_le_advance (c : Cursor) : c.position ≤ c.advance.position := by
  rcases c with ⟨passed, _ | ⟨token, rest⟩⟩ <;> simp [advance, position]

end Cursor

namespace Session

def withCursor (s : Session) (c : Cursor) : Session :=
  { s with cursor := c }

end Session

theorem Effect.apply_withCursor (effect : Effect) (s : Session) (c : Cursor) :
    effect.apply (s.withCursor c) = (effect.apply s).map (·.withCursor c) := by
  cases effect with
  | none => rfl
  | emit instruction =>
    simp only [apply, Session.emit, Session.withCursor]
    cases s.code.emit instruction <;> rfl
  | declare symbol =>
    simp only [apply, Session.declare, Session.withCursor]
    cases s.symbols.declare symbol <;> rfl
  | patch index =>
    simp only [apply, Session.patch, Session.withCursor]
    cases s.code.patch index s.code.nextAddress <;> rfl
  | close =>
    simp only [apply, Session.emit, Session.withCursor]
    cases s.code.emit (.system .halt) <;> rfl

namespace Task

variable {task : Task} {s : Session} {c : Cursor}

theorem move_withCursor (hbare : c.current.bare = s.token.bare) :
    task.move (s.withCursor c).token (s.withCursor c).symbols.scope (s.withCursor c).code.size =
      task.move s.token s.symbols.scope s.code.size := by
  rw [← move_bare, ← move_bare _ s.token, ← hbare]
  rfl

theorem perform_withCursor_of_ok {move : Move} {t : Session} (hbare : c.current.bare = s.token.bare)
    (hmove : task.move s.token s.symbols.scope s.code.size = .ok move)
    (happly : move.effect.apply s = .ok t) :
    task.perform (s.withCursor c) =
      .ok (move.more, if move.reads then (t.withCursor c).advance else t.withCursor c) := by
  refine perform_eq_ok_iff.2 ⟨move, t.withCursor c, ?_, ?_, rfl, rfl⟩
  · rw [move_withCursor hbare, hmove]
  · rw [Effect.apply_withCursor, happly]
    rfl

theorem perform_withCursor_of_error {error : CompileError} (hbare : c.current.bare = s.token.bare)
    (h : task.perform s = .error error) : task.perform (s.withCursor c) = .error error := by
  rw [perform_eq_error_iff] at h ⊢
  simp only [move_withCursor hbare, Effect.apply_withCursor, Except.map_eq_error_iff]
  exact h

end Task

namespace Pass

def withCursor (p : Pass) (c : Cursor) : Pass :=
  ⟨p.agenda, p.session.withCursor c⟩

theorem step_withCursor {p q : Pass} {c : Cursor} (hproper : p.Proper)
    (hbare : c.current.bare = p.session.token.bare)
    (hposition : c.position = p.session.cursor.position) (hstep : p.step = .next q) :
    ∃ c', (p.withCursor c).step = .next (q.withCursor c') ∧ c'.tokens = c.tokens ∧
      c'.position = q.session.cursor.position := by
  obtain ⟨task, tasks, move, t, hagenda, htask, _, hmove, happly, rfl⟩ |
    ⟨t, hagenda, hkind, happly, rfl⟩ := hproper.exists_of_step hstep
  · have hperform := Task.perform_withCursor_of_ok hbare hmove happly
    have hcursor := Effect.cursor_apply happly
    refine ⟨if move.reads then c.advance else c, ?_, ?_, ?_⟩
    · simp only [step, withCursor, hagenda, hperform]
      cases move.reads <;> rfl
    · cases move.reads with
      | false => rfl
      | true => exact c.tokens_advance
    · cases hreads : move.reads with
      | false => simp [hposition, hcursor]
      | true =>
        have hend := (Task.kind_ne_of_reads htask hmove hreads).2
        have hend' : c.kind ≠ .endOfInput := by
          rw [Cursor.kind, ← Token.kind_bare, hbare, Token.kind_bare]
          exact hend
        simp only [if_true, Session.cursor_advance, hcursor, Cursor.position_advance hend,
          Cursor.position_advance hend', hposition]
  · have hmove : Task.finish.move p.session.token p.session.symbols.scope p.session.code.size =
        .ok ⟨[], .close, false⟩ := if_pos hkind
    have hperform := Task.perform_withCursor_of_ok hbare hmove happly
    refine ⟨c, ?_, rfl, ?_⟩
    · simp only [step, withCursor, hagenda, hperform]
      rfl
    · rw [hposition, Effect.cursor_apply happly]

theorem position_le_of_step {p q : Pass} (h : p.step = .next q) :
    p.session.cursor.position ≤ q.session.cursor.position := by
  obtain ⟨task, rest, more, t, _, hperform, rfl⟩ := exists_of_step h
  obtain ⟨move, u, _, happly, _, rfl⟩ := Task.perform_eq_ok_iff.1 hperform
  rw [← Effect.cursor_apply happly]
  cases move.reads with
  | false => exact Nat.le_refl _
  | true => exact u.cursor.position_le_advance

theorem position_le_of_run {p q : Pass} {result : Except CompileError Unit}
    (h : p.run = (result, q)) : p.session.cursor.position ≤ q.session.cursor.position := by
  refine run_of_step (fun q => p.session.cursor.position ≤ q.session.cursor.position) ?_ h
    (Nat.le_refl _)
  intro p' q' hnext hp'
  exact Nat.le_trans hp' (position_le_of_step hnext)

/-- The second pass differs from the first in its tokens only, and stands at the same position. -/
inductive Shadows (tokens : List Token) : Pass → Pass → Prop where
  | over {p : Pass} {c : Cursor} (hproper : p.Proper) (htokens : c.tokens = tokens)
      (hposition : c.position = p.session.cursor.position) : Shadows tokens p (p.withCursor c)

theorem Shadows.matches_step {tokens : List Token} {p p' : Pass} (h : Shadows tokens p p')
    (hagrees : (Token.nth p.session.cursor.tokens p.session.cursor.position).Agrees
      (Token.nth tokens p.session.cursor.position)) :
    Step.Matches (Shadows tokens) p.step p'.step := by
  obtain @⟨c, hproper, rfl, hposition⟩ := h
  have hbare := Cursor.bare_current_eq hposition hagrees
  cases hstep : p.step with
  | done =>
    have hdone : (p.withCursor c).step = .done := by
      simp only [step, withCursor, agenda_of_done hstep]
    rw [hdone]
    exact .done
  | failed error =>
    obtain ⟨task, rest, hagenda, hperform⟩ := exists_of_failed hstep
    rw [withCursor, hagenda, step_of_error (Task.perform_withCursor_of_error hbare hperform)]
    exact .failed error
  | next q =>
    obtain ⟨c', hstep', htokens, hposition'⟩ := step_withCursor hproper hbare hposition hstep
    rw [hstep']
    exact .next (.over (hproper.step hstep) htokens hposition')

theorem run_withCursor {p q : Pass} {result : Except CompileError Unit} {c : Cursor}
    (hproper : p.Proper) (hposition : c.position = p.session.cursor.position)
    (hagrees : ∀ i ≤ q.session.cursor.position,
      (Token.nth p.session.cursor.tokens i).Agrees (Token.nth c.tokens i))
    (hrun : p.run = (result, q)) :
    ∃ c', (p.withCursor c).run = (result, q.withCursor c') ∧
      c'.position = q.session.cursor.position := by
  rw [← tokens_run hrun] at hagrees
  have hstep : ∀ {p p' : Pass}, p.run = (result, q) → Shadows c.tokens p p' →
      Step.Matches (Shadows c.tokens) p.step p'.step := by
    intro p p' hrun hshadows
    apply hshadows.matches_step
    rw [← tokens_run hrun]
    exact hagrees _ (position_le_of_run hrun)
  obtain ⟨_, hrun', @⟨c', _, _, hposition'⟩⟩ :=
    run_of_matches hstep hrun (.over hproper rfl hposition)
  exact ⟨c', hrun', hposition'⟩

/-- No period and no end of input has been read. -/
def Before (p : Pass) : Prop :=
  ∀ token ∈ p.session.cursor.passed, token.kind ≠ .period ∧ token.kind ≠ .endOfInput

theorem Before.step {p q : Pass} (hproper : p.Proper) (hstep : p.step = .next q) (h : p.Before) :
    q.Before := by
  unfold Before at *
  obtain ⟨task, tasks, move, t, hagenda, htask, _, hmove, happly, rfl⟩ |
    ⟨t, hagenda, hkind, happly, rfl⟩ := hproper.exists_of_step hstep
  · have hcursor := Effect.cursor_apply happly
    cases hreads : move.reads with
    | false =>
      simp only [Bool.false_eq_true, if_false, hcursor]
      exact h
    | true =>
      intro token hmem
      simp only [if_true, Session.cursor_advance, hcursor] at hmem
      cases Cursor.mem_passed_advance hmem with
      | inl hpassed => exact h token hpassed
      | inr hcurrent => exact hcurrent ▸ Task.kind_ne_of_reads htask hmove hreads
  · rw [Effect.cursor_apply happly]
    exact h

end Pass

namespace Session

variable {tokens tokens' : List Token} {maxSymbols maxCodeLength : Nat}
  {result : Except CompileError Unit} {t : Session}

theorem position_le_of_pass
    (h : (start ⟨[], tokens⟩ maxSymbols maxCodeLength).pass = (result, t)) {i : Nat}
    (hkind : (Token.nth tokens i).kind = .period ∨ (Token.nth tokens i).kind = .endOfInput) :
    t.cursor.position ≤ i := by
  obtain ⟨_, _, rfl⟩ | ⟨_, q, hrun, rfl⟩ := pass_cases h
  · exact Nat.zero_le i
  · have htokens : q.session.cursor.tokens = tokens := Pass.tokens_run hrun
    have hbefore := ((Pass.proper_program _).run_of_step Pass.Before Pass.Before.step hrun
      (by simp [Pass.Before, start])).2
    apply Nat.le_of_not_lt
    intro hlt
    rw [← htokens] at hkind
    have hlength : i < q.session.cursor.passed.reverse.length := by
      rw [List.length_reverse]
      exact hlt
    have hread : Token.nth q.session.cursor.tokens i ∈ q.session.cursor.passed := by
      rw [Token.nth, Cursor.tokens, List.getElem?_append_left hlength,
        List.getElem?_eq_getElem hlength]
      exact List.mem_reverse.1 (List.getElem_mem hlength)
    obtain ⟨hperiod, hend⟩ := hbefore _ hread
    cases hkind with
    | inl hkind => exact hperiod hkind
    | inr hkind => exact hend hkind

/--
What a pass comes to depends on the tokens up to where it stops, and of them only on what their kind
makes use of. It does not get beyond the first period or end of input.
-/
theorem pass_eq_of_agrees (hskip : ∀ token ∈ tokens, token.kind ≠ .skip)
    (hskip' : ∀ token ∈ tokens', token.kind ≠ .skip)
    (h : (start ⟨[], tokens⟩ maxSymbols maxCodeLength).pass = (result, t)) :
    ((∀ i ≤ t.cursor.position, (Token.nth tokens i).Agrees (Token.nth tokens' i)) →
      ∃ t', (start ⟨[], tokens'⟩ maxSymbols maxCodeLength).pass = (result, t') ∧
        t'.code = t.code ∧ t'.symbols = t.symbols ∧ t'.log = t.log ∧
          t'.cursor.position = t.cursor.position) ∧
    ∀ i, (Token.nth tokens i).kind = .period ∨ (Token.nth tokens i).kind = .endOfInput →
      t.cursor.position ≤ i := by
  refine ⟨?_, fun i => position_le_of_pass h⟩
  intro hagrees
  have hcontains := (@contains_skip_initial tokens ⟨maxSymbols, maxCodeLength, 0⟩).2 hskip
  have hcontains' := (@contains_skip_initial tokens' ⟨maxSymbols, maxCodeLength, 0⟩).2 hskip'
  obtain ⟨hrefused, _⟩ | ⟨_, q, hrun, rfl⟩ := pass_cases h
  · cases hrefused.symm.trans hcontains
  · obtain ⟨c', hrun', hposition⟩ := Pass.run_withCursor (Pass.proper_program _)
      (show (⟨[], tokens'⟩ : Cursor).position = 0 from rfl) hagrees hrun
    refine ⟨q.session.withCursor c', ?_, rfl, rfl, rfl, hposition⟩
    exact pass_of_run hcontains' hrun'

theorem pass_eq_of_agrees_write :
    ∃ t t',
      (start ⟨[], [.plain .writeSym, .number 7, .plain .period, .plain .endSym]⟩ 0 5).pass =
        (.ok (), t) ∧
      (start ⟨[], [⟨.writeSym, "put", 1⟩, ⟨.number, "seven", 7⟩, ⟨.period, "stop", 2⟩]⟩ 0 5).pass =
        (.ok (), t') ∧
      t'.code = t.code ∧ t.cursor.position ≤ 2 := by
  -- The second text carries other names where they are not used, and ends earlier.
  let tokens : List Token := [.plain .writeSym, .number 7, .plain .period, .plain .endSym]
  let tokens' : List Token := [⟨.writeSym, "put", 1⟩, ⟨.number, "seven", 7⟩, ⟨.period, "stop", 2⟩]
  have hresult : (start ⟨[], tokens⟩ 0 5).pass.1 = .ok () := by decide +kernel
  have hskip : ∀ token ∈ tokens, token.kind ≠ .skip := by decide
  have hskip' : ∀ token ∈ tokens', token.kind ≠ .skip := by decide
  have hagrees : ∀ i ≤ 2, (Token.nth tokens i).Agrees (Token.nth tokens' i) := by decide
  obtain ⟨hagree, hperiod⟩ := pass_eq_of_agrees hskip hskip' (Prod.ext hresult rfl)
  have hposition := hperiod 2 (.inl rfl)
  obtain ⟨t', hpass', hcode, _⟩ := hagree fun i hi => hagrees i (Nat.le_trans hi hposition)
  exact ⟨_, t', Prod.ext hresult rfl, hpass', hcode, hposition⟩

end Session
end PL0
