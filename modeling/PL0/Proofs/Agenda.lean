import PL0.Compile

/-!
This module contains the theory of agendas that are done to the end. `Performs` is the big-step view
of a pass: what takes the place of a task is done before what stands behind the task. A pass
succeeds exactly if its agenda can be performed, and a compilation exactly if that holds for a whole
program.
-/

namespace PL0

/--
The tasks of an agenda can all be done, and lead from one session to another.
-/
inductive Performs : List Task → Session → Session → Prop where
  | nil (s : Session) : Performs [] s s
  | cons {task : Task} {more rest : List Task} {s u v t : Session}
      (hperform : task.perform s = .ok (more, u)) (hmore : Performs more u v)
      (hrest : Performs rest v t) : Performs (task :: rest) s t

/-- Each task of an agenda leads from one session to the next as `R` allows. -/
def Chain (R : Task → Session → Session → Prop) : List Task → Session → Session → Prop
  | [], s, t => t = s
  | task :: rest, s, t => ∃ u, R task s u ∧ Chain R rest u t

namespace Performs

theorem append {tasks rest : List Task} {s u t : Session} (h : Performs tasks s u)
    (hrest : Performs rest u t) : Performs (tasks ++ rest) s t := by
  induction h with
  | nil => exact hrest
  | cons hperform hmore _ _ ih =>
    rw [List.cons_append]
    apply Performs.cons hperform hmore
    apply ih
    exact hrest

theorem append_iff {tasks rest : List Task} {s t : Session} :
    Performs (tasks ++ rest) s t ↔ ∃ u, Performs tasks s u ∧ Performs rest u t := by
  constructor
  · intro h
    induction tasks generalizing s with
    | nil => exact ⟨s, .nil s, h⟩
    | cons task tasks ih =>
      cases h with
      | cons hperform hmore hrest =>
        obtain ⟨u, htasks, hrest⟩ := ih hrest
        exact ⟨u, .cons hperform hmore htasks, hrest⟩
  · rintro ⟨u, htasks, hrest⟩
    exact htasks.append hrest

theorem one {task : Task} {s t : Session} (h : task.perform s = .ok ([], t)) :
    Performs [task] s t :=
  .cons h (.nil t) (.nil t)

theorem step {task : Task} {more : List Task} {s u t : Session}
    (h : task.perform s = .ok (more, u)) (hmore : Performs more u t) : Performs [task] s t :=
  .cons h hmore (.nil t)

theorem chain {R : Task → Session → Session → Prop}
    (hstep : ∀ {task : Task} {more : List Task} {s u t : Session},
      task.perform s = .ok (more, u) → Chain R more u t → R task s t)
    {tasks : List Task} {s t : Session} (h : Performs tasks s t) : Chain R tasks s t := by
  -- The tasks that take the place of a task are part of the derivation, so they are chained
  -- already.
  induction h with
  | nil => rfl
  | cons hperform _ _ ihmore ihrest =>
    refine ⟨_, ?_, ihrest⟩
    apply hstep hperform
    exact ihmore

end Performs

namespace Pass

theorem run_eq_of_done {p : Pass} (h : p.step = .done) : p.run = (.ok (), p) := by
  rw [run]
  split <;> simp_all

theorem run_eq_of_failed {p : Pass} {error : CompileError} (h : p.step = .failed error) :
    p.run = (.error error, p) := by
  rw [run]
  split <;> simp_all

theorem run_eq_of_step {p q : Pass} (h : p.step = .next q) : p.run = q.run := by
  rw [run]
  split <;> simp_all

theorem run_eq_of_perform {task : Task} {rest more : List Task} {s u : Session}
    (h : task.perform s = .ok (more, u)) : run ⟨task :: rest, s⟩ = run ⟨more ++ rest, u⟩ := by
  apply run_eq_of_step
  simp [step, h]

theorem run_eq_of_performs {tasks rest : List Task} {s t : Session} (h : Performs tasks s t) :
    run ⟨tasks ++ rest, s⟩ = run ⟨rest, t⟩ := by
  induction h generalizing rest with
  | nil => rfl
  | cons hperform _ _ ihmore ihrest =>
    rw [List.cons_append, run_eq_of_perform hperform, ihmore, ihrest]

theorem performs_of_run {p q : Pass} (h : p.run = (.ok (), q)) :
    Performs p.agenda p.session q.session := by
  induction p using run.induct with
  | case1 p hstep =>
    rw [run_eq_of_done hstep] at h
    simp only [Prod.mk.injEq, true_and] at h
    subst h
    rcases p with ⟨_ | ⟨task, rest⟩, s⟩
    · exact .nil s
    · simp only [step] at hstep
      split at hstep <;> cases hstep
  | case2 p error hstep =>
    rw [run_eq_of_failed hstep] at h
    cases h
  | case3 p p' hstep ih =>
    rw [run_eq_of_step hstep] at h
    have hafter := ih h
    rcases p with ⟨_ | ⟨task, rest⟩, s⟩
    · cases hstep
    · simp only [step] at hstep
      split at hstep
      · cases hstep
      · next more u hperform =>
        cases hstep
        -- The new tasks stand in front of the rest, and are all done before it.
        obtain ⟨v, hmore, hrest⟩ := Performs.append_iff.1 hafter
        exact .cons hperform hmore hrest

theorem run_eq_ok_iff {tasks : List Task} {s t : Session} :
    (∃ q, run ⟨tasks, s⟩ = (.ok (), q) ∧ q.session = t) ↔ Performs tasks s t := by
  constructor
  · rintro ⟨q, h, rfl⟩
    exact performs_of_run h
  · intro h
    refine ⟨⟨[], t⟩, ?_, rfl⟩
    rw [← List.append_nil tasks, run_eq_of_performs h]
    apply run_eq_of_done
    rfl

end Pass

/-- Doing the first tasks comes to doing the others, whatever stands behind them. -/
def Becomes (tasks : List Task) (s : Session) (more : List Task) (u : Session) : Prop :=
  ∀ rest, Pass.run ⟨tasks ++ rest, s⟩ = Pass.run ⟨more ++ rest, u⟩

theorem Performs.becomes {tasks : List Task} {s t : Session} (h : Performs tasks s t) :
    Becomes tasks s [] t := by
  intro rest
  exact Pass.run_eq_of_performs h

namespace Becomes

variable {tasks more : List Task} {s u : Session}

theorem of_perform {task : Task} (h : task.perform s = .ok (more, u)) :
    Becomes [task] s more u := by
  intro rest
  exact Pass.run_eq_of_perform h

theorem trans {last : List Task} {t : Session} (h : Becomes tasks s more u)
    (h' : Becomes more u last t) : Becomes tasks s last t := by
  intro rest
  rw [h, h']

theorem append (h : Becomes tasks s more u) (behind : List Task) :
    Becomes (tasks ++ behind) s (more ++ behind) u := by
  intro rest
  rw [List.append_assoc, List.append_assoc]
  apply h

theorem performs {t : Session} (h : Becomes tasks s more u) (hmore : Performs more u t) :
    Performs tasks s t := by
  obtain ⟨q, hrun, hq⟩ := Pass.run_eq_ok_iff.2 hmore
  have hsame := h []
  rw [List.append_nil, List.append_nil] at hsame
  apply Pass.run_eq_ok_iff.1
  exact ⟨q, hsame.trans hrun, hq⟩

end Becomes

/-- A pass succeeds if there is no `skip` token and the tasks of a program can be done. -/
theorem Session.pass_eq_ok_iff {s t : Session} :
    s.pass = (.ok (), t) ↔ s.cursor.contains .skip = false ∧ Performs Task.program s t := by
  unfold pass
  split
  · next hskip => simp [hskip]
  · next hskip =>
    rw [← Pass.run_eq_ok_iff]
    simp only [hskip, true_and, Prod.ext_iff]
    constructor
    · rintro ⟨hok, ht⟩
      exact ⟨_, ⟨hok, rfl⟩, ht⟩
    · rintro ⟨q, ⟨hok, hq⟩, rfl⟩
      exact ⟨hok, congrArg Pass.session hq⟩

def Session.initial (tokens : List Token) (limits : Limits) : Session :=
  .start ⟨[], tokens⟩ limits.maxSymbols limits.maxCodeLength

theorem Session.contains_skip_initial {tokens : List Token} {limits : Limits} :
    (initial tokens limits).cursor.contains .skip = false ↔
      ∀ token ∈ tokens, token.kind ≠ .skip := by
  simp [initial, start, Cursor.contains, Cursor.tokens]

theorem Cursor.ofTokens_eq_ok_iff {tokens : List Token} {limit : Nat} {c : Cursor} :
    ofTokens tokens limit = .ok c ↔ tokens ≠ [] ∧ tokens.length ≤ limit ∧ c = ⟨[], tokens⟩ := by
  unfold ofTokens
  split
  · simp_all
  · split
    · next hlimit => simp [Nat.not_le.2 hlimit]
    · next hempty hlimit =>
      simp only [List.isEmpty_iff] at hempty
      rw [Except.ok.injEq, eq_comm]
      simp [hempty, Nat.le_of_not_lt hlimit]

/-- The last event of a compilation whose pass ended with the given result. -/
def Session.closing (s : Session) (tokens : Nat) : Except CompileError Unit → Event
  | .error error => .aborted error (error.fault?.map Fault.code) s.code.size s.symbols.size
  | .ok () => .finished tokens s.code.size s.symbols.size

theorem compile_of_pass {tokens : List Token} {limits : Limits} {cursor : Cursor}
    {result : Except CompileError Unit} {t : Session}
    (hcursor : Cursor.ofTokens tokens limits.maxTokens = .ok cursor)
    (hpass : (Session.start cursor limits.maxSymbols limits.maxCodeLength).pass = (result, t)) :
    compile tokens limits =
      ⟨result.map fun _ => t.target, t.events ++ [t.closing tokens.length result]⟩ := by
  unfold compile
  rw [hcursor]
  simp only [hpass]
  cases result <;> rfl

theorem compile_of_error {tokens : List Token} {limits : Limits} {error : CompileError}
    (h : Cursor.ofTokens tokens limits.maxTokens = .error error) :
    compile tokens limits = ⟨.error error, []⟩ := by
  unfold compile
  rw [h]

/-- A compilation succeeds if the tokens are within the limit and a program can be performed. -/
theorem compile_eq_ok_iff {tokens : List Token} {limits : Limits} {p : TargetProgram} :
    (compile tokens limits).result = .ok p ↔
      tokens ≠ [] ∧ tokens.length ≤ limits.maxTokens ∧ (∀ token ∈ tokens, token.kind ≠ .skip) ∧
        ∃ t, Performs Task.program (.initial tokens limits) t ∧ t.target = p := by
  rw [← @Session.contains_skip_initial tokens limits]
  unfold compile
  split
  · next error herror =>
    have hnot : ¬ (tokens ≠ [] ∧ tokens.length ≤ limits.maxTokens) := by
      rintro ⟨hempty, hlimit⟩
      rw [Cursor.ofTokens_eq_ok_iff.2 ⟨hempty, hlimit, rfl⟩] at herror
      cases herror
    simp only [reduceCtorEq, false_iff]
    rintro ⟨hempty, hlimit, _⟩
    exact hnot ⟨hempty, hlimit⟩
  · next cursor hcursor =>
    obtain ⟨hempty, hlimit, rfl⟩ := Cursor.ofTokens_eq_ok_iff.1 hcursor
    simp only [ne_eq, hempty, not_false_eq_true, hlimit, true_and]
    rw [← exists_and_left]
    simp only [← and_assoc, ← Session.pass_eq_ok_iff]
    split
    · next error s hpass =>
      have hinitial : (Session.initial tokens limits).pass = (.error error, s) := hpass
      simp [hinitial]
    · next s hpass =>
      have hinitial : (Session.initial tokens limits).pass = (.ok (), s) := hpass
      simp [hinitial]

end PL0
