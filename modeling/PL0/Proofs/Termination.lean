import PL0.Proofs.Lookahead
import PL0.Util.List
import Mathlib.Logic.Relation
import Mathlib.Order.WellFounded

/-!
This module contains why a pass comes to an end. A task that is being done calls for the tasks that
take its place. Of a caller and a callee, either a token has been read in between, or the callee is
the lighter task; so there is no way back to a task without reading a token, and the calls go only
as deep as there are tokens. This holds from any session, and a token that is not there is never
taken to be read.
-/

namespace PL0

namespace Performs

variable {tasks : List Task} {s t : Session}

theorem tokens_eq (h : Performs tasks s t) : t.cursor.tokens = s.cursor.tokens := by
  obtain ⟨q, hrun, rfl⟩ := Pass.run_eq_ok_iff.2 h
  exact Pass.tokens_run hrun

theorem length_rest_le (h : Performs tasks s t) :
    t.cursor.rest.length ≤ s.cursor.rest.length := by
  obtain ⟨q, hrun, rfl⟩ := Pass.run_eq_ok_iff.2 h
  have htokens := Pass.tokens_run hrun
  have hposition := Pass.position_le_of_run hrun
  have hs := s.cursor.position_add_length_rest
  have hq := q.session.cursor.position_add_length_rest
  rw [htokens] at hq
  dsimp only at *
  omega

end Performs

/-- A task that is to be done, and the session that it is done in. -/
structure Call where
  task : Task
  session : Session

namespace Call

/-- The tokens that are still to be read. -/
def remaining (c : Call) : Nat :=
  c.session.cursor.rest.length

def position (c : Call) : Nat :=
  c.session.cursor.position

/-- Doing the first task comes to the second, when those in front of it are done. -/
inductive Invokes : Call → Call → Prop where
  | intro {task next : Task} {before behind : List Task} {s u t : Session}
      (hperform : task.perform s = .ok (before ++ next :: behind, u))
      (hbefore : Performs before u t) : Invokes ⟨task, s⟩ ⟨next, t⟩

variable {c d : Call}

theorem Invokes.tokens_eq (h : c.Invokes d) :
    d.session.cursor.tokens = c.session.cursor.tokens := by
  cases h with
  | @intro task next before behind s u t hperform hbefore =>
    have hstep : Pass.step ⟨[task], s⟩ = .next ⟨before ++ next :: behind ++ [], u⟩ :=
      Pass.step_of_ok hperform
    rw [hbefore.tokens_eq]
    exact Pass.tokens_step hstep

theorem weight_le_totalWeight (before : List Task) (next : Task) (behind : List Task) :
    next.weight ≤ Task.totalWeight (before ++ next :: behind) := by
  rw [Task.totalWeight_append, Task.totalWeight]
  omega

theorem Invokes.descends (h : c.Invokes d) :
    d.remaining < c.remaining ∨ d.remaining = c.remaining ∧ d.task.weight < c.task.weight := by
  cases h with
  | @intro task next before behind s u t hperform hbefore =>
    have hle := hbefore.length_rest_le
    have hnext := weight_le_totalWeight before next behind
    unfold remaining
    cases Task.reads_perform hperform with
    | nothing hcursor hweight =>
      rw [hcursor] at hle
      dsimp only
      omega
    | token hcursor hkind =>
      have hadvance := Cursor.length_rest_advance hkind
      rw [hcursor] at hle
      dsimp only
      omega
    | expected hcursor hmore => simp at hmore

theorem wellFounded_invokes : WellFounded fun callee caller : Call => caller.Invokes callee := by
  have hlex : WellFounded (Prod.Lex (· < · : Nat → Nat → Prop) (· < · : Nat → Nat → Prop)) :=
    WellFounded.prod_lex Nat.lt_wfRel.wf Nat.lt_wfRel.wf
  apply Subrelation.wf _ (InvImage.wf (fun c : Call => (c.remaining, c.task.weight)) hlex)
  intro callee caller h
  apply Prod.lex_def.2
  exact h.descends

open Relation (TransGen)

theorem descends_of_transGen (h : TransGen Invokes c d) :
    d.session.cursor.tokens = c.session.cursor.tokens ∧
      (d.remaining < c.remaining ∨
        d.remaining = c.remaining ∧ d.task.weight < c.task.weight) := by
  induction h with
  | single hcall => exact ⟨hcall.tokens_eq, hcall.descends⟩
  | tail _ hcall ih =>
    have hlast := hcall.descends
    refine ⟨hcall.tokens_eq.trans ih.1, ?_⟩
    omega

theorem position_lt_of_remaining_lt (htokens : d.session.cursor.tokens = c.session.cursor.tokens)
    (h : d.remaining < c.remaining) : c.position < d.position := by
  have hc := c.session.cursor.position_add_length_rest
  have hd := d.session.cursor.position_add_length_rest
  rw [htokens] at hd
  unfold position
  unfold remaining at h
  omega

theorem position_lt_of_transGen (h : TransGen Invokes c d)
    (hweight : c.task.weight ≤ d.task.weight) :
    c.position < d.position := by
  obtain ⟨htokens, hdescends⟩ := descends_of_transGen h
  apply position_lt_of_remaining_lt htokens
  omega

theorem Invokes.ne_expect (h : c.Invokes d) (kind : Kind) (fault : Fault) :
    c.task ≠ .expect kind fault := by
  intro htask
  cases h with
  | intro hperform =>
    cases htask
    rw [Task.perform] at hperform
    split at hperform
    · simp at hperform
    · cases hperform

theorem Invokes.remaining_lt_of_moreStatements (h : c.Invokes d) (hc : c.task = .moreStatements) :
    d.remaining < c.remaining ∨ d.task = .expect .endSym .endExpected := by
  cases h with
  | @intro task next before behind s u t hperform hbefore =>
    cases hc
    rw [Task.perform] at hperform
    split at hperform
    · next hkind =>
      obtain ⟨_, rfl⟩ := Prod.mk.inj (Except.ok.inj hperform)
      have hseen : s.kind ≠ .endOfInput := by rw [hkind]; decide
      have hadvance := Cursor.length_rest_advance hseen
      left
      calc t.cursor.rest.length
        _ ≤ s.cursor.advance.rest.length := hbefore.length_rest_le
        _ < s.cursor.rest.length := by omega
    · obtain ⟨hmore, _⟩ := Prod.mk.inj (Except.ok.inj hperform)
      obtain ⟨_, hlast⟩ | ⟨_, hlast⟩ := List.singleton_eq_append_iff.1 hmore
      · exact .inr (List.cons.inj hlast).1
      · cases hlast

theorem position_lt_of_moreStatements (h : TransGen Invokes c d) (hc : c.task = .moreStatements)
    (hd : d.task = .statement) : c.position < d.position := by
  -- The weights do not tell this one: the statements of a list weigh less than the list.
  apply position_lt_of_remaining_lt (descends_of_transGen h).1
  obtain ⟨first, hfirst, hrest⟩ := TransGen.head'_iff.1 h
  obtain hlt | htask := hfirst.remaining_lt_of_moreStatements hc
  · obtain rfl | hcalls := Relation.reflTransGen_iff_eq_or_transGen.1 hrest
    · exact hlt
    · have hdescends := (descends_of_transGen hcalls).2
      omega
  · -- The `end` of the list calls for nothing.
    obtain rfl | ⟨_, hcall, _⟩ := hrest.cases_head
    · rw [htask] at hd
      cases hd
    · exact absurd htask (hcall.ne_expect _ _)

end Call

namespace Task

/--
The recursion of the grammar: a statement in a statement, an expression between the parentheses of a
factor, and the further rounds of the five repetitions.
-/
inductive Recurs : Task → Task → Prop where
  | statement : Recurs statement statement
  | parentheses : Recurs factor expression
  | nextConstant : Recurs constantName constantName
  | nextVariable (address address' : Word) : Recurs (variableName address) (variableName address')
  | nextStatement : Recurs moreStatements statement
  | nextTerm : Recurs moreTerms term
  | nextFactor : Recurs moreFactors factor

end Task

theorem Call.position_lt_of_recurs {c d : Call} (hcalls : Relation.TransGen Call.Invokes c d)
    (hrecurs : c.task.Recurs d.task) : c.position < d.position := by
  generalize hc : c.task = task at hrecurs
  generalize hd : d.task = next at hrecurs
  cases hrecurs with
  | nextStatement => exact position_lt_of_moreStatements hcalls hc hd
  | statement | parentheses | nextConstant | nextVariable | nextTerm | nextFactor =>
    apply position_lt_of_transGen hcalls
    simp [hc, hd, Task.weight]

namespace Pass

/-- A pass goes from one state to another in `n` steps. -/
inductive Steps : Nat → Pass → Pass → Prop where
  | refl (p : Pass) : Steps 0 p p
  | tail {n : Nat} {p q r : Pass} (h : Steps n p q) (hstep : q.step = .next r) : Steps (n + 1) p r

theorem Steps.head {n : Nat} {p q r : Pass} (h : Steps n q r) (hstep : p.step = .next q) :
    Steps (n + 1) p r := by
  induction h with
  | refl => exact .tail (.refl p) hstep
  | tail _ hlast ih => exact .tail (ih hstep) hlast

theorem exists_steps {p q : Pass} {result : Except CompileError Unit} (hrun : p.run = (result, q)) :
    ∃ n ≤ p.effort, Steps n p q := by
  induction p using run.induct with
  | case1 p hdone =>
    rw [run_eq_of_done hdone] at hrun
    cases hrun
    exact ⟨0, Nat.zero_le _, .refl _⟩
  | case2 p error hfailed =>
    rw [run_eq_of_failed hfailed] at hrun
    cases hrun
    exact ⟨0, Nat.zero_le _, .refl _⟩
  | case3 p p' hnext ih =>
    rw [run_eq_of_step hnext] at hrun
    obtain ⟨n, hn, hsteps⟩ := ih hrun
    have heffort := effort_lt_of_step hnext
    exact ⟨n + 1, by omega, hsteps.head hnext⟩

theorem effort_program (s : Session) :
    effort ⟨Task.program, s⟩ = 12 * s.cursor.rest.length + 6 := rfl

end Pass

namespace Call

open Relation (ReflTransGen)

/-- The call is made in a pass over a program, by one of its tasks or for one that is called. -/
def Made (s : Session) (c : Call) : Prop :=
  ∃ before task behind u, Task.program = before ++ task :: behind ∧ Performs before s u ∧
    ReflTransGen Invokes ⟨task, u⟩ c

end Call

namespace Pass

open Call (Made Invokes)

/-- Each task of the agenda will be called, if it is reached. -/
def Scheduled (s : Session) (p : Pass) : Prop :=
  ∀ before task behind t, p.agenda = before ++ task :: behind → Performs before p.session t →
    Made s ⟨task, t⟩

theorem scheduled_program (s : Session) : Scheduled s ⟨Task.program, s⟩ := by
  intro before task behind t hagenda hbefore
  exact ⟨before, task, behind, t, hagenda, hbefore, .refl⟩

theorem Scheduled.step {s : Session} {p q : Pass} (hstep : p.step = .next q)
    (h : Scheduled s p) : Scheduled s q := by
  obtain ⟨task, rest, more, u, hagenda, hperform, rfl⟩ := exists_of_step hstep
  intro before next behind t hsplit hbefore
  obtain ⟨middle, rfl⟩ | ⟨last, rfl, rfl⟩ := List.exists_of_append_cons_eq_append hsplit.symm
  · -- The task takes the place of the one that is done in this step.
    obtain ⟨front, first, back, v, hprogram, hfront, hcalls⟩ := h [] task rest _ hagenda (.nil _)
    exact ⟨front, first, back, v, hprogram, hfront, hcalls.tail (.intro hperform hbefore)⟩
  · -- The task was on the agenda before.
    obtain ⟨v, hmore, hlast⟩ := Performs.append_iff.1 hbefore
    exact h (task :: last) next behind t hagenda (.cons hperform hmore hlast)

theorem scheduled_of_steps {s : Session} {n : Nat} {p : Pass}
    (h : Steps n ⟨Task.program, s⟩ p) : Scheduled s p := by
  generalize hstart : (⟨Task.program, s⟩ : Pass) = start at h
  induction h with
  | refl =>
    rw [← hstart]
    exact scheduled_program s
  | tail _ hstep ih => exact (ih hstart).step hstep

open Relation (TransGen)

/--
A pass ends, from whatever session it starts, within twelve steps for each token that is left and
six more. The tasks that it does are called by each other in a well-founded way: a call of a task
reads a token, or the task is lighter than its caller. In particular a token has been read wherever
the grammar recurs. No call moves the cursor back, whether it fails or not.
-/
theorem terminates :
    (∀ c d : Call, c.Invokes d →
      d.remaining < c.remaining ∨ d.remaining = c.remaining ∧ d.task.weight < c.task.weight) ∧
    (WellFounded fun callee caller : Call => caller.Invokes callee) ∧
    (∀ c d : Call, TransGen Invokes c d → c.task.Recurs d.task → c.position < d.position) ∧
    (∀ (c : Call) (result : Except CompileError Unit) (q : Pass),
      run ⟨[c.task], c.session⟩ = (result, q) → c.position ≤ q.session.cursor.position) ∧
    ∀ s : Session,
      (∀ n p task rest, Steps n ⟨Task.program, s⟩ p → p.agenda = task :: rest →
        Made s ⟨task, p.session⟩) ∧
      ∃ n result q, n ≤ 12 * s.cursor.rest.length + 6 ∧ Steps n ⟨Task.program, s⟩ q ∧
        run ⟨Task.program, s⟩ = (result, q) ∧
          ((result = .ok () ∧ q.agenda = []) ∨
            ∃ error, result = .error error ∧ q.step = .failed error) := by
  refine ⟨?_, Call.wellFounded_invokes, ?_, ?_, ?_⟩
  · intro c d hcall
    exact hcall.descends
  · intro c d hcalls hrecurs
    exact Call.position_lt_of_recurs hcalls hrecurs
  · intro c result q hrun
    exact position_le_of_run hrun
  · intro s
    constructor
    · intro n p task rest hsteps hagenda
      exact scheduled_of_steps hsteps [] task rest _ hagenda (.nil _)
    · rcases hrun : run ⟨Task.program, s⟩ with ⟨result, q⟩
      obtain ⟨n, hn, hsteps⟩ := exists_steps hrun
      rw [effort_program] at hn
      exact ⟨n, result, q, hn, hsteps, rfl, step_of_run hrun⟩

/-- A `begin` behind a `begin`, and nothing behind that. -/
def nestedBegin : Session :=
  .start ⟨[], [.plain .beginSym, .plain .beginSym]⟩ 0 0

theorem terminates_nestedBegin :
    TransGen Invokes ⟨.statement, nestedBegin⟩ ⟨.statement, nestedBegin.advance.advance⟩ ∧
      (⟨.statement, nestedBegin⟩ : Call).position <
        (⟨.statement, nestedBegin.advance.advance⟩ : Call).position ∧
      nestedBegin.advance.advance.kind = .endOfInput := by
  obtain ⟨_, _, hrecurs, _⟩ := terminates
  have houter : Invokes ⟨.statement, nestedBegin⟩ ⟨.statement, nestedBegin.advance⟩ :=
    .intro (by exact rfl) (.nil _)
  have hinner :
      Invokes ⟨.statement, nestedBegin.advance⟩ ⟨.statement, nestedBegin.advance.advance⟩ :=
    .intro (by exact rfl) (.nil _)
  have hcalls := TransGen.tail (.single houter) hinner
  exact ⟨hcalls, hrecurs _ _ hcalls .statement, rfl⟩

end Pass
end PL0
