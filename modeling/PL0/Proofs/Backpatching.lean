import PL0.Proofs.CodeSize

/-!
This module contains the discipline by which branches get their targets. While the body of a
construct is translated its branch is open: it has no target yet, and behind the body the agenda
holds a task that sets it. The open branches and these tasks match each other like brackets,
wherever a pass stops, so that no task sets the target of anything but the innermost open branch.
-/

namespace PL0

/-- A conditional branch whose target is not set. -/
def Cell.isOpen (cell : Cell) : Bool :=
  cell.instruction.op == .jpc && ! cell.patched

@[simp]
theorem Cell.isOpen_settled (instruction : Instruction) :
    (Cell.settled instruction).isOpen = false := by
  cases h : instruction.op == .jpc <;> simp [isOpen, settled, h]

theorem Cell.isOpen_hole : Cell.isOpen ⟨.hole, false⟩ = true := rfl

namespace Code

/--
The code is that of `base` with finished pieces and open branches behind it, the open branches being
those with the indices `holes`, the innermost first.
-/
inductive Nested (base : Code) : List Nat → Code → Prop where
  | nil (more : List Instruction) : Nested base [] (base.extend more)
  | cons {holes : List Nat} {code : Code} (h : Nested base holes code) (more : List Instruction) :
      Nested base (code.size :: holes) (code.extendOpen more)

namespace Nested

variable {base code after : Code} {holes : List Nat}

theorem extend (h : Nested base holes code) (more : List Instruction) :
    Nested base holes (code.extend more) := by
  cases h with
  | nil first =>
    rw [extend_extend]
    exact nil _
  | cons h first =>
    rw [extend_extendOpen]
    exact cons h _

theorem emit {instruction : Instruction} {index : Nat} (h : Nested base holes code)
    (hop : instruction.op ≠ .jpc) (hemit : code.emit instruction = .ok (index, after)) :
    Nested base holes after := by
  obtain ⟨_, _, rfl⟩ := (emit_eq_ok_iff_extend hop).1 hemit
  exact h.extend [instruction]

theorem emit_hole {index : Nat} (h : Nested base holes code)
    (hemit : code.emit .hole = .ok (index, after)) : Nested base (code.size :: holes) after := by
  obtain ⟨_, _, rfl⟩ := emit_hole_eq_ok_iff.1 hemit
  exact cons h []

theorem exists_patch {index : Nat} (h : Nested base (index :: holes) code) (target : Word) :
    ∃ after, code.patch index target = .ok (.branch target, after) ∧ Nested base holes after := by
  cases h with
  | cons h more => exact ⟨_, patch_extendOpen _ more target, h.extend _⟩

theorem exists_added (h : Nested base holes code) :
    ∃ added : List Cell, code.cells.toList = base.cells.toList ++ added ∧
      (∀ cell ∈ added, cell = ⟨.hole, false⟩ ∨ ∃ instruction, cell = .settled instruction) ∧
        added.countP Cell.isOpen = holes.length := by
  induction h with
  | nil more =>
    refine ⟨more.map .settled, by simp [Code.extend], ?_, ?_⟩
    · simp only [List.mem_map]
      rintro _ ⟨instruction, _, rfl⟩
      exact .inr ⟨instruction, rfl⟩
    · simp [Function.comp_def]
  | @cons holes code h more ih =>
    obtain ⟨added, hcells, hadded, hcount⟩ := ih
    refine ⟨added ++ ⟨.hole, false⟩ :: more.map .settled, by simp [extendOpen, hcells], ?_, ?_⟩
    · simp only [List.mem_append, List.mem_cons, List.mem_map]
      rintro cell (hcell | rfl | ⟨instruction, _, rfl⟩)
      · exact hadded cell hcell
      · exact .inl rfl
      · exact .inr ⟨instruction, rfl⟩
    · simp [List.countP_cons, Cell.isOpen_hole, Function.comp_def, hcount]

end Nested
end Code

/-- Whether the event tells that the branch with the given index got its target. -/
def Event.directs (index : Nat) : Event → Bool
  | patched i .. => i == index
  | _ => false

namespace Code

/-- Whether there is an instruction with the given index whose target has been set. -/
def isPatched (code : Code) (index : Nat) : Bool :=
  code.cells[index]?.any (·.patched)

/--
Targets that have been set lie behind their branches. The log tells of each of them once, and of no
other.
-/
structure Directed (code : Code) (log : List Event) : Prop where
  forward : ∀ {i cell}, code.cells[i]? = some cell → cell.patched = true →
    ∃ target, i < target ∧ target ≤ code.size ∧
      cell.instruction.modifier = Instruction.wordAddress target
  once : ∀ i, log.countP (Event.directs i) = (code.isPatched i).toNat

namespace Directed

variable {code after : Code} {log : List Event}

theorem emit {instruction : Instruction} {index : Nat} (h : Directed code log)
    (hemit : code.emit instruction = .ok (index, after)) : Directed after log := by
  have hsize := size_emit hemit
  obtain ⟨_, _, rfl⟩ := emit_eq_ok_iff.1 hemit
  constructor
  · intro i cell hcell hpatched
    rw [Array.getElem?_push] at hcell
    split at hcell
    · cases hcell
      cases hpatched
    · obtain ⟨target, hlt, hle, hmodifier⟩ := h.forward hcell hpatched
      exact ⟨target, hlt, by omega, hmodifier⟩
  · intro i
    rw [h.once]
    by_cases hi : i = code.cells.size
    · simp [isPatched, hi]
    · simp [isPatched, Array.getElem?_push, hi]

theorem patch {index : Nat} {branch : Instruction} (h : Directed code log)
    (hpatch : code.patch index code.nextAddress = .ok (branch, after)) :
    Directed after (.patched index branch.op branch.modifier :: log) := by
  -- The target is the next instruction, so it lies behind the branch.
  have hsize := size_patch hpatch
  obtain ⟨before, hbefore, _, hopen, rfl, rfl⟩ := patch_eq_ok_iff.1 hpatch
  have hindex : index < code.cells.size := (Array.getElem?_eq_some_iff.1 hbefore).1
  constructor
  · intro i cell hcell hpatched
    rw [hsize]
    by_cases hi : index = i
    · subst hi
      simp only [Array.getElem?_setIfInBounds_self_of_lt hindex, Option.some.injEq] at hcell
      rw [← hcell]
      exact ⟨code.size, hindex, Nat.le_refl _, rfl⟩
    · simp only [Array.getElem?_setIfInBounds_ne hi] at hcell
      exact h.forward hcell hpatched
  · intro i
    rw [List.countP_cons, h.once]
    by_cases hi : index = i
    · subst hi
      have hbranch : code.isPatched index = false := by simp [isPatched, hbefore, hopen]
      rw [hbranch]
      simp [isPatched, Event.directs, hindex]
    · simp [isPatched, Event.directs, hi, Array.getElem?_setIfInBounds_ne hi]

theorem declared (h : Directed code log) (symbol : Symbol) :
    Directed code (.declared symbol :: log) := by
  refine ⟨h.forward, ?_⟩
  intro i
  rw [List.countP_cons, h.once]
  rfl

end Directed
end Code

theorem Effect.directed_apply {effect : Effect} {s t : Session} (h : s.code.Directed s.log)
    (happly : effect.apply s = .ok t) : t.code.Directed t.log := by
  cases apply_eq_ok_iff.1 happly with
  | none => exact h
  | emit hemit | close hemit => exact h.emit hemit
  | @declare symbol => exact h.declared symbol
  | patch hpatch => exact h.patch hpatch

/-- Whether the effect leaves the branches alone. -/
def Effect.Plain : Effect → Prop
  | none | declare _ => True
  | emit instruction => instruction.op ≠ .jpc
  | patch _ | close => False

theorem Scope.op_ne_jpc_of_fetch {scope : Scope} {name : String} {instruction : Instruction}
    (h : scope.fetch name = .ok instruction) : instruction.op ≠ .jpc := by
  cases op_of_fetch h <;> simp_all

namespace Task

/-- The branch that a task is to direct. -/
def branch? : Task → Option Nat
  | patch index => some index
  | _ => none

/-- The branches that are to be directed, in the order in which that is to be done. -/
def branches (agenda : List Task) : List Nat :=
  agenda.filterMap branch?

theorem branches_append (tasks rest : List Task) :
    branches (tasks ++ rest) = branches tasks ++ branches rest :=
  List.filterMap_append

theorem branches_cons {task : Task} (h : task.branch? = none) (rest : List Task) :
    branches (task :: rest) = branches rest :=
  List.filterMap_cons_none h

/-- What is to be done behind the body of the construct whose branch the task emits. -/
def afterBody? (task : Task) (size : Nat) : Option (List Task) :=
  match task with
  | thenPart => some [patch size, expect .fiSym .fiExpected]
  | loopPart _ => some [patch size]
  | _ => none

variable {task : Task} {token : Token} {scope : Scope} {size : Nat} {move : Move}

theorem plain_move (htask : task.Proper) (hbranch : task.branch? = none)
    (hbody : task.afterBody? size = none) (h : task.move token scope size = .ok move) :
    branches move.more = [] ∧ move.effect.Plain := by
  revert h
  fun_cases Task.move task token scope size
  all_goals
    rintro ⟨⟩
    try exact ⟨rfl, trivial⟩
  · exact ⟨rfl, htask⟩
  · cases hbranch
  · cases hbody
  · cases hbody
  · next hfetch => exact ⟨rfl, Scope.op_ne_jpc_of_fetch hfetch⟩
  · exact ⟨rfl, by simp [Effect.Plain, Instruction.literal]⟩
  · cases htask

theorem branch_cases (htask : task.Proper) (h : task.move token scope size = .ok move) :
    (∃ index, task = patch index ∧ move = ⟨[], .patch index, false⟩) ∨
    (∃ first body after, task.branch? = none ∧ task.afterBody? size = some (patch size :: after) ∧
      move = ⟨first :: (body ++ patch size :: after), .emit .hole, false⟩ ∧
        first.branch? = none ∧ branches body = [] ∧ branches after = []) ∨
    (task.branch? = none ∧ task.afterBody? size = none ∧ branches move.more = [] ∧
      move.effect.Plain) := by
  cases task with
  | patch index =>
    cases h
    exact .inl ⟨index, rfl, rfl⟩
  | thenPart =>
    cases h
    exact .inr (.inl ⟨_, [_], [_], rfl, rfl, rfl, rfl, rfl, rfl⟩)
  | loopPart start =>
    cases h
    exact .inr (.inl ⟨_, [_, _], [], rfl, rfl, rfl, rfl, rfl, rfl⟩)
  | _ => exact .inr (.inr ⟨rfl, rfl, plain_move htask rfl rfl h⟩)

theorem branch?_of_effect {index : Nat} (h : task.move token scope size = .ok move)
    (heffect : move.effect = .patch index) : task.branch? = some index := by
  revert h heffect
  fun_cases Task.move task token scope size
  all_goals
    rintro ⟨⟩ ⟨⟩
    try rfl

end Task

namespace Effect

variable {effect : Effect} {base : Code} {holes : List Nat} {s t : Session}

theorem Plain.nested_apply (hplain : effect.Plain) (h : base.Nested holes s.code)
    (happly : effect.apply s = .ok t) : base.Nested holes t.code := by
  cases apply_eq_ok_iff.1 happly with
  | none | declare => exact h
  | emit hemit => exact h.emit hplain hemit
  | patch | close => cases hplain

end Effect

namespace Pass

/-- The tasks that direct branches match the open branches of the code. -/
def Matched (base : Code) (p : Pass) : Prop :=
  base.Nested (Task.branches p.agenda) p.session.code

theorem Matched.step {base : Code} {p q : Pass} (hproper : p.Proper) (hstep : p.step = .next q)
    (h : p.Matched base) : q.Matched base := by
  unfold Matched at *
  obtain ⟨task, tasks, move, t, hagenda, htask, _, hmove, happly, rfl⟩ |
    ⟨t, hagenda, _, happly, rfl⟩ := hproper.exists_of_step hstep
  · have hcode : (if move.reads then t.advance else t).code = t.code := by split <;> rfl
    rw [hagenda] at h
    rw [hcode]
    obtain ⟨index, rfl, rfl⟩ | ⟨first, body, after, hbranch, _, rfl, hfirst, hbody, hafter⟩ |
      ⟨hbranch, _, hmore, hplain⟩ := Task.branch_cases htask hmove
    · cases Effect.apply_eq_ok_iff.1 happly with
      | patch hpatch =>
        obtain ⟨after, hafter, hnested⟩ := h.exists_patch p.session.code.nextAddress
        rw [hafter] at hpatch
        cases hpatch
        exact hnested
    · rw [Task.branches_cons hbranch] at h
      have hmore : Task.branches (first :: (body ++ .patch p.session.code.size :: after)) =
          [p.session.code.size] := by
        rw [Task.branches_cons hfirst, Task.branches_append, hbody, List.nil_append]
        exact congrArg _ hafter
      rw [Task.branches_append, hmore]
      cases Effect.apply_eq_ok_iff.1 happly with
      | emit hemit => exact h.emit_hole hemit
    · rw [Task.branches_cons hbranch] at h
      rw [Task.branches_append, hmore, List.nil_append]
      exact hplain.nested_apply h happly
  · rw [hagenda] at h
    cases Effect.apply_eq_ok_iff.1 happly with
    | close hemit =>
      refine h.emit ?_ hemit
      simp [Instruction.system]

theorem Matched.branch?_of_failed {base : Code} {p : Pass} {error : CompileError}
    (h : p.Matched base) (hfailed : p.step = .failed error) :
    (∃ task rest, p.agenda = task :: rest ∧ task.branch? = none) ∧
      ∀ index cause, error ≠ .invalidPatch index cause := by
  obtain ⟨task, rest, hagenda, hperform⟩ := exists_of_failed hfailed
  have hbranch : task.branch? = none := by
    cases task with
    | patch index =>
      rw [Matched, hagenda] at h
      obtain ⟨_, hpatch, _⟩ := h.exists_patch p.session.code.nextAddress
      simp [Task.perform, Session.patch, hpatch, Except.map] at hperform
    | _ => rfl
  refine ⟨⟨task, rest, hagenda, hbranch⟩, ?_⟩
  rintro index cause rfl
  obtain ⟨fault, _, herror⟩ | ⟨move, hmove, happly⟩ := Task.perform_eq_error_iff.1 hperform
  · cases herror
  · generalize heffect : move.effect = effect at happly
    cases Effect.fails_of_apply happly
    rw [Task.branch?_of_effect hmove heffect] at hbranch
    cases hbranch

/-- What is to be done behind the body of the construct whose branch is emitted in the next step. -/
def behindBody? (p : Pass) : Option (List Task) :=
  match p.agenda with
  | [] => none
  | task :: rest => (task.afterBody? p.session.code.size).map (· ++ rest)

/--
The constructs whose body is begun and not completed when the pass ends. A construct stands here for
what is to be done behind its body: its body is begun when its branch is emitted, and completed when
the agenda is down to what is to be done behind it. Those that were begun before are in `begun`.
-/
def openBodies (p : Pass) (begun : List (List Task)) : List (List Task) :=
  match _h : p.step with
  | .done | .failed _ => begun
  | .next q => q.openBodies ((p.behindBody?.toList ++ begun).filter (· ≠ q.agenda))
termination_by p.effort
decreasing_by exact effort_lt_of_step ‹_›

end Pass

namespace Task

/-- The ends of an agenda that start with a task that directs a branch. -/
def bodyEnds : List Task → List (List Task)
  | [] => []
  | task :: rest =>
    match task.branch? with
    | some _ => (task :: rest) :: bodyEnds rest
    | none => bodyEnds rest

theorem length_bodyEnds (agenda : List Task) :
    (bodyEnds agenda).length = (branches agenda).length := by
  induction agenda with
  | nil => rfl
  | cons task rest ih =>
    cases h : task.branch? with
    | none => simp [bodyEnds, h, branches_cons h, ih]
    | some index => simp_all [bodyEnds, branches]

theorem length_le_of_mem_bodyEnds {agenda tasks : List Task} (h : tasks ∈ bodyEnds agenda) :
    tasks.length ≤ agenda.length := by
  induction agenda with
  | nil => cases h
  | cons task rest ih =>
    rw [List.length_cons]
    unfold bodyEnds at h
    split at h
    · cases List.mem_cons.1 h with
      | inl heq => exact Nat.le_of_eq (congrArg List.length heq)
      | inr hmem => exact Nat.le_succ_of_le (ih hmem)
    · exact Nat.le_succ_of_le (ih h)

theorem filter_bodyEnds {rest agenda : List Task} (h : rest.length < agenda.length) :
    (bodyEnds rest).filter (· ≠ agenda) = bodyEnds rest := by
  rw [List.filter_eq_self]
  intro tasks hmem
  have hle := length_le_of_mem_bodyEnds hmem
  rw [decide_eq_true_iff]
  rintro rfl
  omega

theorem bodyEnds_append {tasks : List Task} (h : branches tasks = []) (rest : List Task) :
    bodyEnds (tasks ++ rest) = bodyEnds rest := by
  induction tasks with
  | nil => rfl
  | cons task tasks ih =>
    cases hbranch : task.branch? with
    | none =>
      rw [branches_cons hbranch] at h
      simp only [List.cons_append, bodyEnds, hbranch]
      exact ih h
    | some index => simp [branches, hbranch] at h

theorem filter_bodyEnds_append {more : List Task} (h : branches more = []) (rest : List Task) :
    (bodyEnds rest).filter (· ≠ more ++ rest) = bodyEnds (more ++ rest).tail := by
  -- Tasks in front of an agenda that direct no branch hide the agenda; without them it is seen
  -- itself, and the body that ends there is completed.
  cases more with
  | cons first more =>
    have hlength : rest.length < (first :: more ++ rest).length := by
      simp only [List.length_append, List.length_cons]
      omega
    have hmore : branches more = [] := by
      simp only [branches, List.filterMap_eq_nil_iff, List.mem_cons, forall_eq_or_imp] at h ⊢
      exact h.2
    rw [filter_bodyEnds hlength, List.cons_append, List.tail_cons, bodyEnds_append hmore]
  | nil =>
    cases rest with
    | nil => rfl
    | cons task rest =>
      have hrest := filter_bodyEnds (show rest.length < (task :: rest).length by simp)
      rw [List.nil_append, List.tail_cons, bodyEnds]
      split
      · rw [List.filter_cons_of_neg (by simp)]
        exact hrest
      · exact hrest

end Task

namespace Pass

theorem bodyEnds_step {p q : Pass} (hproper : p.Proper) (hstep : p.step = .next q) :
    (p.behindBody?.toList ++ Task.bodyEnds p.agenda.tail).filter (· ≠ q.agenda) =
      Task.bodyEnds q.agenda.tail := by
  obtain ⟨task, tasks, move, t, hagenda, htask, _, hmove, _, rfl⟩ |
    ⟨t, hagenda, _, _, rfl⟩ := hproper.exists_of_step hstep
  · rw [behindBody?, hagenda]
    simp only [List.tail_cons]
    obtain ⟨index, rfl, rfl⟩ | ⟨first, body, after, _, hbehind, rfl, _, hbody, hafter⟩ |
      ⟨_, hbehind, hmore, _⟩ := Task.branch_cases htask hmove
    · exact Task.filter_bodyEnds_append rfl _
    · rw [hbehind, List.cons_append, List.tail_cons, List.append_assoc, Task.bodyEnds_append hbody,
        List.cons_append, Task.bodyEnds]
      simp only [Task.branch?, Task.bodyEnds_append hafter, Option.map_some, Option.toList_some,
        List.cons_append, List.nil_append]
      rw [List.filter_cons_of_pos, Task.filter_bodyEnds]
      · simp only [List.length_append, List.length_cons]
        omega
      · -- The body that has just been begun stands before what is behind it.
        rw [decide_eq_true_iff]
        intro heq
        have hlength := congrArg List.length heq
        simp only [List.length_append, List.length_cons] at hlength
        omega
    · rw [hbehind]
      exact Task.filter_bodyEnds_append hmore _
  · rw [behindBody?, hagenda]
    rfl

theorem openBodies_eq {p q : Pass} {result : Except CompileError Unit} (hproper : p.Proper)
    (hrun : p.run = (result, q)) :
    p.openBodies (Task.bodyEnds p.agenda.tail) = Task.bodyEnds q.agenda.tail := by
  induction p using run.induct with
  | case1 p hdone =>
    rw [run_eq_of_done hdone] at hrun
    cases hrun
    rw [openBodies]
    split <;> simp_all
  | case2 p error hfailed =>
    rw [run_eq_of_failed hfailed] at hrun
    cases hrun
    rw [openBodies]
    split <;> simp_all
  | case3 p p' hnext ih =>
    rw [run_eq_of_step hnext] at hrun
    rw [← ih (hproper.step hnext) hrun, ← bodyEnds_step hproper hnext, openBodies]
    split <;> simp_all

end Pass

theorem Pass.directed_step {p q : Pass} (hstep : p.step = .next q)
    (h : p.session.code.Directed p.session.log) : q.session.code.Directed q.session.log := by
  obtain ⟨task, rest, more, t, _, hperform, rfl⟩ := exists_of_step hstep
  obtain ⟨move, u, _, happly, _, rfl⟩ := Task.perform_eq_ok_iff.1 hperform
  have hdirected := Effect.directed_apply h happly
  cases move.reads <;> exact hdirected

namespace Session

/-- The number of constructs of which a pass emits the branch and does not complete the body. -/
def openBodies (s : Session) : Nat :=
  if s.cursor.contains .skip then 0 else (Pass.openBodies ⟨Task.program, s⟩ []).length

theorem exists_nested_of_pass {s t : Session} {result : Except CompileError Unit}
    (h : s.pass = (result, t)) :
    ∃ holes, s.code.Nested holes t.code ∧ holes.length = s.openBodies ∧
      (result = .ok () → holes = []) ∧
        ∀ index cause, result ≠ .error (.invalidPatch index cause) := by
  unfold openBodies
  have hstart : s.code.Nested [] s.code := s.code.extend_nil ▸ Code.Nested.nil []
  obtain ⟨hskip, rfl, rfl⟩ | ⟨hskip, q, hrun, rfl⟩ := pass_cases h
  · refine ⟨[], hstart, ?_, ?_, ?_⟩
    · rw [if_pos hskip]
      rfl
    · intro hresult
      cases hresult
    · rintro index cause ⟨⟩
  · have hproper := Pass.proper_program s
    obtain ⟨_, hmatched⟩ := hproper.run_of_step (Pass.Matched s.code) Pass.Matched.step hrun hstart
    have hbodies : Pass.openBodies ⟨Task.program, s⟩ [] = Task.bodyEnds q.agenda.tail :=
      Pass.openBodies_eq hproper hrun
    rw [if_neg (by simp [hskip]), hbodies, Task.length_bodyEnds]
    refine ⟨Task.branches q.agenda, hmatched, ?_⟩
    obtain ⟨rfl, hagenda⟩ | ⟨error, rfl, hfailed⟩ := Pass.step_of_run hrun
    · rw [hagenda]
      refine ⟨rfl, fun _ => rfl, ?_⟩
      rintro index cause ⟨⟩
    · obtain ⟨⟨task, rest, hagenda, hbranch⟩, hnever⟩ := hmatched.branch?_of_failed hfailed
      rw [hagenda, Task.branches_cons hbranch]
      refine ⟨rfl, ?_, ?_⟩
      · intro hresult
        cases hresult
      · rintro index cause ⟨⟩
        exact hnever index cause rfl

theorem directed_of_pass {s t : Session} {result : Except CompileError Unit}
    (hdirected : s.code.Directed s.log) (h : s.pass = (result, t)) : t.code.Directed t.log := by
  obtain ⟨_, _, rfl⟩ | ⟨_, q, hrun, rfl⟩ := pass_cases h
  · exact hdirected
  · exact Pass.run_of_step (fun p => p.session.code.Directed p.session.log) Pass.directed_step hrun
      hdirected

theorem directed_start (cursor : Cursor) (maxSymbols maxCodeLength : Nat) :
    (start cursor maxSymbols maxCodeLength).code.Directed
      (start cursor maxSymbols maxCodeLength).log := by
  constructor
  · intro i cell hcell
    simp [start, Code.empty] at hcell
  · intro i
    simp [start, Code.empty, Code.isPatched]

theorem cell_of_pass {tokens : List Token} {maxSymbols maxCodeLength : Nat}
    {result : Except CompileError Unit} {t : Session}
    (h : (start ⟨[], tokens⟩ maxSymbols maxCodeLength).pass = (result, t)) {i : Nat} {cell : Cell}
    (hcell : t.code.cells[i]? = some cell) :
    cell = ⟨.hole, false⟩ ∨ ∃ instruction, cell = .settled instruction := by
  obtain ⟨holes, hnested, _⟩ := exists_nested_of_pass h
  obtain ⟨added, hcells, hadded, _⟩ := hnested.exists_added
  apply hadded
  have hmem := Array.mem_toList_iff.2 (Array.mem_of_getElem? hcell)
  rw [hcells] at hmem
  exact hmem

theorem countP_isOpen_of_pass {tokens : List Token} {maxSymbols maxCodeLength : Nat}
    {result : Except CompileError Unit} {t : Session}
    (h : (start ⟨[], tokens⟩ maxSymbols maxCodeLength).pass = (result, t)) :
    t.code.cells.countP Cell.isOpen = (start ⟨[], tokens⟩ maxSymbols maxCodeLength).openBodies ∧
      (result = .ok () → t.code.cells.countP Cell.isOpen = 0) := by
  obtain ⟨holes, hnested, hlength, hok, _⟩ := exists_nested_of_pass h
  obtain ⟨added, hcells, _, hcount⟩ := hnested.exists_added
  have hadded : t.code.cells.toList = added := hcells
  rw [← Array.countP_toList, hadded, hcount]
  refine ⟨hlength, ?_⟩
  intro hresult
  rw [hok hresult]
  rfl

/--
Where a pass over not too many tokens stops, with whatever result, only conditional branches have
got a target, which lies behind them and not beyond the code. As many branches have none as there
are constructs whose body has not been completed. After success each conditional branch has got its
target just once.
-/
theorem branches_of_pass {tokens : List Token} {maxSymbols maxCodeLength : Nat}
    {result : Except CompileError Unit} {t : Session} (hlength : tokens.length ≤ 715827880)
    (h : (start ⟨[], tokens⟩ maxSymbols maxCodeLength).pass = (result, t)) :
    (∀ index cause, result ≠ .error (.invalidPatch index cause)) ∧
      (∀ i cell, t.code.cells[i]? = some cell →
        (cell.patched = true → cell.instruction.op = .jpc ∧
          ∃ target : Nat, i < target ∧ target ≤ t.code.size ∧
            cell.instruction.modifier.toInt = 3 * (target : Int)) ∧
        (cell.instruction.op = .jpc → cell.patched = false → cell.instruction.modifier = 0)) ∧
      t.code.cells.countP (fun cell => cell.instruction.op == .jpc && ! cell.patched) =
        (start ⟨[], tokens⟩ maxSymbols maxCodeLength).openBodies ∧
      (result = .ok () → ∀ i,
        t.log.countP (Event.directs i) =
            (t.code.cells[i]?.any (·.instruction.op == .jpc)).toNat ∧
          ∀ cell, t.code.cells[i]? = some cell →
            (cell.patched = true ↔ cell.instruction.op = .jpc)) := by
  obtain ⟨_, _, _, _, hnever⟩ := exists_nested_of_pass h
  obtain ⟨hopen, hnone⟩ := countP_isOpen_of_pass h
  have hdirected := directed_of_pass (directed_start _ _ _) h
  refine ⟨hnever, ?_, hopen, ?_⟩
  · intro i cell hcell
    obtain rfl | ⟨instruction, rfl⟩ := cell_of_pass h hcell
    · exact ⟨by simp, fun _ _ => rfl⟩
    · constructor
      · intro hpatched
        obtain ⟨target, hlt, hle, hmodifier⟩ := hdirected.forward hcell hpatched
        refine ⟨eq_of_beq hpatched, target, hlt, hle, ?_⟩
        have hsize := size_code_le_of_pass h
        have htarget : target * Instruction.width < UInt32.size / 2 := by
          simp only [Instruction.width, UInt32.size]
          omega
        rw [hmodifier, Instruction.toInt_wordAddress htarget]
        simp only [Instruction.width]
        omega
      · intro hop hpatched
        simp only [Cell.settled, beq_eq_false_iff_ne] at hop hpatched
        exact absurd hop hpatched
  · intro hresult i
    have hcells : ∀ cell, t.code.cells[i]? = some cell →
        (cell.patched = true ↔ cell.instruction.op = .jpc) := by
      intro cell hcell
      obtain rfl | ⟨instruction, rfl⟩ := cell_of_pass h hcell
      · -- There is no open branch.
        have hmem := Array.mem_of_getElem? hcell
        exact absurd Cell.isOpen_hole (Array.countP_eq_zero.1 (hnone hresult) _ hmem)
      · exact beq_iff_eq
    refine ⟨?_, hcells⟩
    rw [hdirected.once, Code.isPatched]
    cases hcell : t.code.cells[i]? with
    | none => rfl
    | some cell =>
      have hiff := hcells cell hcell
      rw [Option.any_some, Option.any_some, Bool.eq_iff_iff.2 (hiff.trans beq_iff_eq.symm)]

/-- The text ends within the second of two constructs in the body of a loop. -/
def unfinished : List Token :=
  [.plain .whileSym, .number 1, .plain .lss, .number 2, .plain .doSym, .plain .beginSym,
   .plain .ifSym, .plain .evenSym, .number 3, .plain .thenSym, .plain .fiSym, .plain .semicolon,
   .plain .ifSym, .plain .evenSym, .number 4, .plain .thenSym, .plain .writeSym]

theorem branches_of_pass_unfinished :
    unfinished.length ≤ 715827880 ∧
      ∃ t, (start ⟨[], unfinished⟩ 0 16).pass = (.error (.fault .factorExpected), t) ∧
        t.code.size = 12 ∧
          t.code.cells.countP (fun cell => cell.instruction.op == .jpc && ! cell.patched) = 2 ∧
            (start ⟨[], unfinished⟩ 0 16).openBodies = 2 := by
  have hlength : unfinished.length ≤ 715827880 := by decide
  have hresult : (start ⟨[], unfinished⟩ 0 16).pass.1 = .error (.fault .factorExpected) := by
    decide +kernel
  have hbodies : (start ⟨[], unfinished⟩ 0 16).openBodies = 2 := by decide +kernel
  obtain ⟨_, _, hcount, _⟩ := branches_of_pass hlength (Prod.ext hresult rfl)
  refine ⟨hlength, _, Prod.ext hresult rfl, ?_, hcount.trans hbodies, hbodies⟩
  decide +kernel

end Session
end PL0
