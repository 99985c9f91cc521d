import PL0.Task

/-!
One pass over a program: the tasks of an agenda are performed one after the other, until none is
left or one fails. Every step lowers `effort`, so the pass ends; where it ends, the agenda tells
what was left undone.
-/

namespace PL0

structure Pass where
  /-- What is still to be done, the next task first. -/
  agenda : List Task
  session : Session
  deriving DecidableEq, Repr

namespace Pass

inductive Step where
  | done
  | failed (error : CompileError)
  | next (pass : Pass)

def step (p : Pass) : Step :=
  match p.agenda with
  | [] => .done
  | task :: rest =>
    match task.perform p.session with
    | .error error => .failed error
    | .ok (more, session) => .next ⟨more ++ rest, session⟩

/-- A bound for the number of steps ahead: a token that is read brings in at most twelve. -/
def effort (p : Pass) : Nat :=
  12 * p.session.cursor.rest.length + Task.totalWeight p.agenda

theorem effort_lt_of_step {p q : Pass} (h : p.step = .next q) : q.effort < p.effort := by
  rcases p with ⟨_ | ⟨task, rest⟩, s⟩
  · cases h
  · simp only [step] at h
    split at h
    · cases h
    · rename_i more s' hperform
      cases h
      have hpos := task.weight_pos
      have hle := s.cursor.length_rest_advance_le
      cases Task.reads_perform hperform with
      | nothing hcursor hweight =>
        simp [effort, Task.totalWeight, hcursor]
        omega
      | token hcursor hkind hweight =>
        have := Cursor.length_rest_advance hkind
        simp [effort, Task.totalWeight, hcursor]
        omega
      | expected hcursor hmore =>
        subst hmore
        simp [effort, Task.totalWeight, hcursor]
        omega

/-- The result of a pass, and where it ended. -/
def run (p : Pass) : Except CompileError Unit × Pass :=
  match _h : p.step with
  | .done => (.ok (), p)
  | .failed error => (.error error, p)
  | .next q => q.run
termination_by p.effort
decreasing_by exact effort_lt_of_step ‹_›

end Pass

/-- One pass over the program that the session's tokens spell from the cursor on. A stream with a
`skip` token anywhere is refused as a whole. -/
def Session.pass (s : Session) : Except CompileError Unit × Session :=
  if s.cursor.contains .skip then (.error (.fault .unreadableText), s)
  else
    let stop := Pass.run ⟨Task.program, s⟩
    (stop.1, stop.2.session)

end PL0
