import PL0.Code
import PL0.Proofs.Requests

/-!
This module contains what code buffers guarantee when several of them are in use and handles are
taken from one to another. A handle is nothing but an index, so that it can name an instruction that
is not there, or not a branch, or one that was patched before.
-/

namespace PL0

/-- A code buffer that keeps the instructions and their flags in two vectors. -/
structure Columns where
  capacity : Nat
  instructions : Array Instruction
  flags : Array Bool

namespace Columns

def empty (capacity : Nat) : Columns := ⟨capacity, #[], #[]⟩

def emit (columns : Columns) (instruction : Instruction) :
    Except CompileError (Nat × Columns) :=
  if columns.instructions.size < columns.capacity then
    let instructions := columns.instructions.push instruction
    let flags := columns.flags.push false
    .ok (columns.instructions.size, { columns with instructions, flags })
  else
    .error (.codeOverflow columns.capacity)

/-- There is no result if the flag is looked up outside of the flags. -/
def patch (columns : Columns) (index : Nat) (target : Word) :
    Option (Except CompileError (Instruction × Columns)) :=
  match columns.instructions[index]? with
  | none => some (.error (.invalidPatch index .outside))
  | some instruction =>
    if ! instruction.op.isBranch then some (.error (.invalidPatch index .notBranch))
    else
      match columns.flags[index]? with
      | none => none
      | some true => some (.error (.invalidPatch index .alreadyPatched))
      | some false =>
        let branch := { instruction with modifier := target }
        let instructions := columns.instructions.setIfInBounds index branch
        let flags := columns.flags.setIfInBounds index true
        some (.ok (branch, { columns with instructions, flags }))

inductive Reachable : Columns → Prop where
  | empty (capacity : Nat) : Reachable (empty capacity)
  | emit {columns after : Columns} {instruction : Instruction} {index : Nat}
      (h : Reachable columns) (hemit : columns.emit instruction = .ok (index, after)) :
      Reachable after
  | patch {columns after : Columns} {branch : Instruction} {index : Nat} {target : Word}
      (h : Reachable columns) (hpatch : columns.patch index target = some (.ok (branch, after))) :
      Reachable after

end Columns

namespace Code

def columns (code : Code) : Columns :=
  ⟨code.capacity, code.cells.map (·.instruction), code.cells.map (·.patched)⟩

theorem columns_empty (capacity : Nat) : (empty capacity).columns = .empty capacity := by
  simp [columns, empty, Columns.empty]

theorem emit_columns (code : Code) (instruction : Instruction) :
    code.columns.emit instruction =
      (code.emit instruction).map fun result => (result.1, result.2.columns) := by
  have hsize : code.columns.instructions.size = code.size := Array.size_map
  unfold Columns.emit emit
  rw [hsize]
  by_cases hroom : code.size < code.capacity
  · simp [columns, hroom, Except.map]
  · simp [columns, hroom, Except.map]

theorem patch_columns (code : Code) (index : Nat) (target : Word) :
    code.columns.patch index target =
      some ((code.patch index target).map fun result => (result.1, result.2.columns)) := by
  unfold Columns.patch patch
  cases hcell : code.cells[index]? with
  | none => simp [columns, hcell, Except.map]
  | some cell =>
    cases hbranch : cell.instruction.op.isBranch with
    | false => simp [columns, hcell, hbranch, Except.map]
    | true =>
      cases hpatched : cell.patched with
      | true => simp [columns, hcell, hbranch, hpatched, Except.map]
      | false =>
        simp [columns, hcell, hbranch, hpatched, Except.map, Array.map_setIfInBounds]

end Code

namespace Columns

theorem Reachable.exists_code {columns : Columns} (h : columns.Reachable) :
    ∃ code : Code, code.columns = columns ∧ code.size ≤ code.capacity := by
  -- As the columns of a buffer, the two vectors cannot get out of step.
  induction h with
  | empty capacity => exact ⟨.empty capacity, Code.columns_empty capacity, Nat.zero_le _⟩
  | @emit columns after instruction index h hemit ih =>
    obtain ⟨code, rfl, hle⟩ := ih
    rw [Code.emit_columns] at hemit
    cases hcode : code.emit instruction with
    | error error =>
      rw [hcode] at hemit
      cases hemit
    | ok result =>
      rw [hcode] at hemit
      cases hemit
      obtain ⟨hroom, _, hafter⟩ := Code.emit_eq_ok_iff.1 hcode
      refine ⟨result.2, rfl, ?_⟩
      rw [Code.size_emit hcode, hafter]
      exact hroom
  | @patch columns after branch index target h hpatch ih =>
    obtain ⟨code, rfl, hle⟩ := ih
    rw [Code.patch_columns] at hpatch
    cases hcode : code.patch index target with
    | error error =>
      rw [hcode] at hpatch
      cases hpatch
    | ok result =>
      rw [hcode] at hpatch
      cases hpatch
      obtain ⟨_, _, _, _, _, hafter⟩ := Code.patch_eq_ok_iff.1 hcode
      refine ⟨result.2, rfl, ?_⟩
      rw [Code.size_patch hcode, hafter]
      exact hle

theorem Reachable.size_flags {columns : Columns} (h : columns.Reachable) :
    columns.flags.size = columns.instructions.size := by
  obtain ⟨code, rfl, _⟩ := h.exists_code
  simp [Code.columns]

theorem Reachable.size_le {columns : Columns} (h : columns.Reachable) :
    columns.instructions.size ≤ columns.capacity := by
  obtain ⟨code, rfl, hle⟩ := h.exists_code
  simpa [Code.columns, Code.size] using hle

end Columns

def Cell.redirect (cell : Cell) (target : Word) : Cell :=
  ⟨{ cell.instruction with modifier := target }, true⟩

/-- What becomes of an emitted instruction when patches with the given targets succeed on it. -/
inductive Cell.Becomes (cell : Cell) : List Word → Cell → Prop where
  | same : Becomes cell [] cell
  | patched (target : Word) (hbranch : cell.instruction.op.isBranch = true)
      (hopen : cell.patched = false) :
      Becomes cell [target] (cell.redirect target)

/-- The flag of an instruction tells whether a patch with a target has succeeded on it. -/
inductive Cell.Tells : Option Cell → List Word → Prop where
  | absent : Tells none []
  | fresh {cell : Cell} (hopen : cell.patched = false) : Tells (some cell) []
  | patched {cell : Cell} (hbranch : cell.instruction.op.isBranch = true)
      (hpatched : cell.patched = true) : Tells (some cell) [cell.instruction.modifier]

/-- What a request does at one place of a buffer, and the target that it sets there. -/
inductive Cell.Steps : Option Cell → Option Word → Option Cell → Prop where
  | same (place : Option Cell) : Steps place none place
  | emitted (instruction : Instruction) : Steps none none (some ⟨instruction, false⟩)
  | patched {cell : Cell} (target : Word) (hbranch : cell.instruction.op.isBranch = true)
      (hopen : cell.patched = false) :
      Steps (some cell) (some target) (some (cell.redirect target))

namespace Cell

variable {cell after : Cell} {place place' : Option Cell} {targets : List Word}
  {target? : Option Word}

theorem Tells.steps (h : Tells place targets) (hsteps : Steps place target? place') :
    Tells place' (targets ++ target?.toList) := by
  cases hsteps with
  | same => simpa using h
  | emitted instruction =>
    cases h with
    | absent => exact .fresh rfl
  | @patched cell target hbranch hopen =>
    cases h with
    | fresh =>
      have hpatched : Tells (some (cell.redirect target)) [target] := .patched hbranch rfl
      exact hpatched
    | patched _ hpatched =>
      rw [hopen] at hpatched
      cases hpatched

theorem Becomes.steps (h : cell.Becomes targets after)
    (hsteps : Steps (some after) target? place') :
    ∃ next, place' = some next ∧ cell.Becomes (targets ++ target?.toList) next := by
  cases hsteps with
  | same => exact ⟨after, rfl, by simpa using h⟩
  | patched target hbranch hopen =>
    cases h with
    | same => exact ⟨_, rfl, .patched target hbranch hopen⟩
    -- The flag is set by now, so that this patch is refused.
    | patched => cases hopen

end Cell

namespace Code

variable {code after : Code} {place : Nat}

theorem steps_emit {instruction : Instruction} (hemit : code.emit instruction = .ok (place, after))
    (index : Nat) : Cell.Steps code.cells[index]? none after.cells[index]? := by
  obtain ⟨_, _, rfl⟩ := emit_eq_ok_iff.1 hemit
  rw [Array.getElem?_push]
  split
  · next hindex =>
    rw [hindex, Array.getElem?_eq_none (Nat.le_refl _)]
    exact .emitted instruction
  · exact .same _

theorem steps_patch {target : Word} {branch : Instruction}
    (hpatch : code.patch place target = .ok (branch, after)) (index : Nat) :
    Cell.Steps code.cells[index]? (if place = index then some target else none)
      after.cells[index]? := by
  obtain ⟨cell, hcell, hbranch, hopen, rfl, rfl⟩ := patch_eq_ok_iff.1 hpatch
  by_cases hplace : place = index
  · subst hplace
    rw [if_pos rfl, hcell,
      Array.getElem?_setIfInBounds_self_of_lt (Array.getElem?_eq_some_iff.1 hcell).1]
    exact .patched target hbranch hopen
  · rw [if_neg hplace, Array.getElem?_setIfInBounds_ne hplace]
    exact .same _

end Code

namespace Buffers

/-- What can be asked of buffers, which are numbered in the order of their creation. -/
inductive Request where
  | create (capacity : Nat)
  | emit (buffer : Nat) (instruction : Instruction)
  | patch (buffer index : Nat) (target : Word)

inductive Answer where
  | created (buffer : Nat)
  | emitted (result : Except CompileError Nat)
  | patched (result : Except CompileError Instruction)
  /-- There is no buffer with the given number. -/
  | absent

def Request.buffer? : Request → Option Nat
  | create _ => none
  | emit buffer _ => some buffer
  | patch buffer _ _ => some buffer

/-- The capacity of the buffer that is asked for. -/
def Request.capacity? : Request → Option Nat
  | create capacity => some capacity
  | emit .. | patch .. => none

def Answer.isFailure : Answer → Bool
  | created _ | emitted (.ok _) | patched (.ok _) => false
  | emitted (.error _) | patched (.error _) | absent => true

def perform (buffers : List Code) : Request → Answer × List Code
  | .create capacity => (.created buffers.length, buffers ++ [.empty capacity])
  | .emit buffer instruction =>
    match buffers[buffer]? with
    | none => (.absent, buffers)
    | some code =>
      match code.emit instruction with
      | .ok (index, after) => (.emitted (.ok index), buffers.set buffer after)
      | .error error => (.emitted (.error error), buffers)
  | .patch buffer index target =>
    match buffers[buffer]? with
    | none => (.absent, buffers)
    | some code =>
      match code.patch index target with
      | .ok (branch, after) => (.patched (.ok branch), buffers.set buffer after)
      | .error error => (.patched (.error error), buffers)

/-- The target that was set by a request, if it set that of the given instruction. -/
def target? (buffer index : Nat) : Request × Answer → Option Word
  | (.patch b i target, .patched (.ok _)) => if b = buffer ∧ i = index then some target else none
  | _ => none

/-- The targets that were set for an instruction, in their order. -/
def targets (buffer index : Nat) (log : List (Request × Answer)) : List Word :=
  log.filterMap (target? buffer index)

def cell? (buffers : List Code) (buffer index : Nat) : Option Cell :=
  buffers[buffer]?.bind (·.cells[index]?)

inductive Performs (buffers : List Code) : Request → Answer → List Code → Prop where
  | create (capacity : Nat) :
      Performs buffers (.create capacity) (.created buffers.length) (buffers ++ [.empty capacity])
  | emit {buffer index : Nat} {code after : Code} {instruction : Instruction}
      (hcode : buffers[buffer]? = some code) (h : code.emit instruction = .ok (index, after)) :
      Performs buffers (.emit buffer instruction) (.emitted (.ok index)) (buffers.set buffer after)
  | patch {buffer index : Nat} {code after : Code} {branch : Instruction} {target : Word}
      (hcode : buffers[buffer]? = some code) (h : code.patch index target = .ok (branch, after)) :
      Performs buffers (.patch buffer index target) (.patched (.ok branch))
        (buffers.set buffer after)
  | none {request : Request} {answer : Answer} (hrequest : request.capacity? = none)
      (hfailure : answer.isFailure = true) : Performs buffers request answer buffers

theorem performs_perform (buffers : List Code) (request : Request) :
    Performs buffers request (perform buffers request).1 (perform buffers request).2 := by
  cases request with
  | create capacity => exact .create capacity
  | emit buffer instruction =>
    simp only [perform]
    split
    · exact .none rfl rfl
    · next code hcode =>
      split
      · next hemit => exact .emit hcode hemit
      · exact .none rfl rfl
  | patch buffer index target =>
    simp only [perform]
    split
    · exact .none rfl rfl
    · next code hcode =>
      split
      · next hpatch => exact .patch hcode hpatch
      · exact .none rfl rfl

theorem cell?_append_empty (buffers : List Code) (capacity buffer index : Nat) :
    cell? (buffers ++ [.empty capacity]) buffer index = cell? buffers buffer index := by
  unfold cell?
  rw [List.getElem?_append]
  split
  · rfl
  · next hge =>
    rw [List.getElem?_eq_none (Nat.le_of_not_lt hge)]
    cases hnew : [Code.empty capacity][buffer - buffers.length]? with
    | none => rfl
    | some code =>
      rw [List.mem_singleton.1 (List.mem_of_getElem? hnew)]
      rfl

theorem cell?_set {buffers : List Code} {buffer : Nat} {code : Code}
    (hcode : buffers[buffer]? = some code) (after : Code) (b index : Nat) :
    cell? (buffers.set buffer after) b index =
      if buffer = b then after.cells[index]? else cell? buffers b index := by
  unfold cell?
  rw [List.getElem?_set, if_pos (List.getElem?_eq_some_iff.1 hcode).1]
  split <;> rfl

variable {buffers after : List Code} {request : Request} {answer : Answer}

theorem target?_of_isFailure (h : answer.isFailure = true) (buffer index : Nat) :
    target? buffer index (request, answer) = none := by
  unfold target?
  split
  · next heq =>
    cases heq
    cases h
  · rfl

theorem Performs.steps (h : Performs buffers request answer after) (buffer index : Nat) :
    Cell.Steps (cell? buffers buffer index) (target? buffer index (request, answer))
      (cell? after buffer index) := by
  cases h with
  | create capacity =>
    rw [cell?_append_empty]
    exact .same _
  | @emit b place code after instruction hcode hemit =>
    rw [cell?_set hcode]
    split
    · next heq =>
      subst heq
      rw [cell?, hcode]
      exact Code.steps_emit hemit index
    · exact .same _
  | @patch b place code after branch target hcode hpatch =>
    rw [cell?_set hcode]
    by_cases hb : b = buffer
    · subst hb
      simpa [target?, cell?, hcode] using Code.steps_patch hpatch index
    · rw [if_neg hb, target?, if_neg (fun h => hb h.1)]
      exact .same _
  | none _ hfailure =>
    rw [target?_of_isFailure hfailure]
    exact .same _

theorem Performs.reachable (h : Performs buffers request answer after)
    (hbuffers : ∀ code ∈ buffers, code.columns.Reachable) :
    ∀ code ∈ after, code.columns.Reachable := by
  have hset {buffer : Nat} {changed : Code} (hchanged : changed.columns.Reachable) :
      ∀ code ∈ buffers.set buffer changed, code.columns.Reachable := by
    intro code hcode
    obtain hmem | rfl := List.mem_or_eq_of_mem_set hcode
    · exact hbuffers code hmem
    · exact hchanged
  cases h with
  | create capacity =>
    apply List.forall_mem_append.2 ⟨hbuffers, ?_⟩
    rw [List.forall_mem_singleton, Code.columns_empty]
    exact .empty capacity
  | @emit buffer index code changed instruction hcode hemit =>
    apply hset
    apply (hbuffers code (List.mem_of_getElem? hcode)).emit
    rw [Code.emit_columns, hemit]
    rfl
  | @patch buffer index code changed branch target hcode hpatch =>
    apply hset
    apply (hbuffers code (List.mem_of_getElem? hcode)).patch
    rw [Code.patch_columns, hpatch]
    rfl
  | none => exact hbuffers

theorem Performs.map_capacity (h : Performs buffers request answer after) :
    after.map (·.capacity) = buffers.map (·.capacity) ++ request.capacity?.toList := by
  have hset {buffer : Nat} {code changed : Code} (hcode : buffers[buffer]? = some code)
      (hcapacity : changed.capacity = code.capacity) :
      (buffers.set buffer changed).map (·.capacity) = buffers.map (·.capacity) ++ [] := by
    have hsame : (buffers.map (·.capacity))[buffer]? = some changed.capacity := by
      rw [List.getElem?_map, hcode, hcapacity]
      rfl
    obtain ⟨hlt, hsame⟩ := List.getElem?_eq_some_iff.1 hsame
    rw [List.append_nil, List.map_set, ← hsame, List.set_getElem_self]
  cases h with
  | create capacity => exact List.map_append
  | @emit buffer index code changed instruction hcode hemit =>
    apply hset hcode
    obtain ⟨_, _, rfl⟩ := Code.emit_eq_ok_iff.1 hemit
    rfl
  | @patch buffer index code changed branch target hcode hpatch =>
    apply hset hcode
    obtain ⟨_, _, _, _, _, rfl⟩ := Code.patch_eq_ok_iff.1 hpatch
    rfl
  | none hrequest =>
    rw [hrequest]
    exact (List.append_nil _).symm

theorem Performs.getElem?_eq (h : Performs buffers request answer after) {buffer : Nat}
    {code : Code} (hne : request.buffer? ≠ some buffer) (hcode : buffers[buffer]? = some code) :
    after[buffer]? = some code := by
  cases h with
  | create capacity =>
    rw [List.getElem?_append_left (List.getElem?_eq_some_iff.1 hcode).1]
    exact hcode
  | emit | patch =>
    rw [List.getElem?_set_ne (fun heq => hne (congrArg some heq))]
    exact hcode
  | none => exact hcode

theorem perform_emit_iff {buffer index : Nat} {instruction : Instruction} :
    (perform buffers (.emit buffer instruction)).1 = .emitted (.ok index) ↔
      ∃ code, buffers[buffer]? = some code ∧ code.size < code.capacity ∧ index = code.size := by
  constructor
  · intro h
    have hperforms := performs_perform buffers (.emit buffer instruction)
    rw [h] at hperforms
    generalize (perform buffers _).2 = after at hperforms
    cases hperforms with
    | @emit _ _ code _ _ hcode hemit =>
      obtain ⟨hroom, hindex, _⟩ := Code.emit_eq_ok_iff.1 hemit
      exact ⟨code, hcode, hroom, hindex⟩
    | none _ hfailure => cases hfailure
  · rintro ⟨code, hcode, hroom, rfl⟩
    simp [perform, hcode, Code.emit, hroom]

theorem perform_patch_iff {buffer index : Nat} {target : Word} :
    (∃ branch, (perform buffers (.patch buffer index target)).1 = .patched (.ok branch)) ↔
      ∃ cell, cell? buffers buffer index = some cell ∧ cell.instruction.op.isBranch = true ∧
        cell.patched = false := by
  constructor
  · rintro ⟨branch, h⟩
    have hperforms := performs_perform buffers (.patch buffer index target)
    rw [h] at hperforms
    generalize (perform buffers _).2 = after at hperforms
    cases hperforms with
    | @patch _ _ code _ _ _ hcode hpatch =>
      obtain ⟨cell, hcell, hbranch, hopen, _⟩ := Code.patch_eq_ok_iff.1 hpatch
      refine ⟨cell, ?_, hbranch, hopen⟩
      rw [cell?, hcode]
      exact hcell
    | none _ hfailure => cases hfailure
  · rintro ⟨cell, hcell, hbranch, hopen⟩
    obtain ⟨code, hcode, hindex⟩ := Option.bind_eq_some_iff.1 hcell
    have hpatch : code.patch index target = .ok _ :=
      Code.patch_eq_ok_iff.2 ⟨cell, hindex, hbranch, hopen, rfl, rfl⟩
    simp only [perform, hcode, hpatch]
    exact ⟨_, rfl⟩

theorem cell?_of_emitted {buffer index : Nat} {instruction : Instruction}
    (h : (perform buffers (.emit buffer instruction)).1 = .emitted (.ok index)) :
    cell? (perform buffers (.emit buffer instruction)).2 buffer index =
      some ⟨instruction, false⟩ := by
  obtain ⟨code, hcode, hroom, rfl⟩ := perform_emit_iff.1 h
  have hemit : code.emit instruction = .ok _ := Code.emit_eq_ok_iff.2 ⟨hroom, rfl, rfl⟩
  simp only [perform, hcode, hemit]
  rw [cell?_set hcode, if_pos rfl]
  exact Array.getElem?_push_size

theorem perform_of_isFailure (h : (perform buffers request).1.isFailure = true) :
    (perform buffers request).2 = buffers := by
  have hperforms := performs_perform buffers request
  generalize perform buffers request = result at h hperforms
  obtain ⟨answer, after⟩ := result
  cases hperforms with
  | create | emit | patch => cases h
  | none => rfl

theorem targets_append (buffer index : Nat) (log : List (Request × Answer))
    (entry : Request × Answer) :
    targets buffer index (log ++ [entry]) =
      targets buffer index log ++ (target? buffer index entry).toList := by
  unfold targets
  rw [List.filterMap_append]
  cases h : target? buffer index entry <;> simp [h]

/-- What buffers have to do with the log of the requests to them. -/
structure Kept (x : Served (List Code) Request Answer) : Prop where
  capacity_eq : x.state.map (·.capacity) = (x.log.map (·.1)).filterMap Request.capacity?
  reachable : ∀ code ∈ x.state, code.columns.Reachable
  tells : ∀ buffer index, Cell.Tells (cell? x.state buffer index) (targets buffer index x.log)

/-- What a log has to do with the instructions that were there before it. -/
def Follows (buffers : List Code) (log : List (Request × Answer)) (after : List Code) : Prop :=
  ∀ ⦃buffer index cell⦄, cell? buffers buffer index = some cell →
    ∃ next, cell? after buffer index = some next ∧ cell.Becomes (targets buffer index log) next

namespace Kept

variable {x : Served (List Code) Request Answer}

theorem fresh : Kept (Served.fresh []) := by
  constructor
  · rfl
  · intro code hcode
    cases hcode
  · intro buffer index
    exact .absent

theorem serve (h : Kept x) (request : Request) : Kept (x.serve perform request) := by
  have hperforms := performs_perform x.state request
  constructor
  · have hcapacity := hperforms.map_capacity
    rw [h.capacity_eq] at hcapacity
    rw [Served.serve, hcapacity, List.map_append, List.filterMap_append]
    cases request <;> rfl
  · exact hperforms.reachable h.reachable
  · intro buffer index
    rw [Served.serve, targets_append]
    exact (h.tells buffer index).steps (hperforms.steps buffer index)

theorem patched_eq_false_iff (h : Kept x) {buffer index : Nat} {cell : Cell}
    (hcell : cell? x.state buffer index = some cell) :
    cell.patched = false ↔ targets buffer index x.log = [] := by
  have htells := h.tells buffer index
  rw [hcell] at htells
  generalize targets buffer index x.log = set at htells
  cases htells with
  | fresh hopen => simp [hopen]
  | patched _ hpatched => simp [hpatched]

end Kept

theorem kept_serveAll (requests : List Request) :
    Kept ((Served.fresh []).serveAll perform requests) := by
  apply Served.serveAll_of_serve Kept
  · intro y request hy
    exact hy.serve request
  · exact .fresh

theorem map_capacity_serveAll (requests : List Request) :
    ((Served.fresh []).serveAll perform requests).state.map (·.capacity) =
      requests.filterMap Request.capacity? := by
  rw [(kept_serveAll requests).capacity_eq, Served.map_fst_log_serveAll]
  rfl

theorem follows_serveAll (x : Served (List Code) Request Answer) (requests : List Request) :
    ∃ log, (x.serveAll perform requests).log = x.log ++ log ∧
      Follows x.state log (x.serveAll perform requests).state := by
  apply Served.serveAll_of_serve fun y =>
    ∃ log, y.log = x.log ++ log ∧ Follows x.state log y.state
  · rintro y request ⟨log, hlog, hfollows⟩
    refine ⟨log ++ [(request, (perform y.state request).1)], ?_, ?_⟩
    · rw [Served.serve, hlog, List.append_assoc]
    · intro buffer index cell hcell
      obtain ⟨next, hnext, hbecomes⟩ := hfollows hcell
      have hsteps := (performs_perform y.state request).steps buffer index
      rw [hnext] at hsteps
      rw [targets_append]
      exact hbecomes.steps hsteps
  · refine ⟨[], (List.append_nil _).symm, ?_⟩
    intro buffer index cell hcell
    exact ⟨cell, hcell, .same⟩

/--
Whatever is asked of buffers, and with whatever handles, each of them has the capacity that it was
created with. The instructions of a buffer and their flags have one length, which is within the
capacity. An emitted instruction stays as it is, but for the target of a branch, which the first
patch sets, whatever it was, and no other. What is refused changes nothing, and no request changes a
buffer that it does not name.
-/
theorem kept_of_requests {requests : List Request} {x : Served (List Code) Request Answer}
    (hx : (Served.fresh []).serveAll perform requests = x) :
    Kept x ∧
      x.state.map (·.capacity) = requests.filterMap Request.capacity? ∧
      (∀ more, x.state.map (·.capacity) <+: (x.serveAll perform more).state.map (·.capacity)) ∧
      (∀ code ∈ x.state, code.columns.flags.size = code.columns.instructions.size ∧
        code.columns.instructions.size ≤ code.capacity ∧
          ∀ index target, code.columns.patch index target =
            some ((code.patch index target).map fun result => (result.1, result.2.columns))) ∧
      (∀ more, ∃ log, (x.serveAll perform more).log = x.log ++ log ∧
        Follows x.state log (x.serveAll perform more).state) ∧
      (∀ buffer index target,
        (∃ branch, (perform x.state (.patch buffer index target)).1 = .patched (.ok branch)) ↔
          ∃ cell, cell? x.state buffer index = some cell ∧
            cell.instruction.op.isBranch = true ∧ targets buffer index x.log = []) ∧
      (∀ buffer index instruction,
        (perform x.state (.emit buffer instruction)).1 = .emitted (.ok index) ↔
          ∃ code, x.state[buffer]? = some code ∧ code.size < code.capacity ∧ index = code.size) ∧
      (∀ buffer index instruction,
        (perform x.state (.emit buffer instruction)).1 = .emitted (.ok index) →
          cell? (perform x.state (.emit buffer instruction)).2 buffer index =
            some ⟨instruction, false⟩) ∧
      (∀ request, (perform x.state request).1.isFailure = true →
        (perform x.state request).2 = x.state) ∧
      (∀ request buffer code, request.buffer? ≠ some buffer → x.state[buffer]? = some code →
        (perform x.state request).2[buffer]? = some code) := by
  have hkept : Kept x := hx ▸ kept_serveAll requests
  have hcapacity : x.state.map (·.capacity) = requests.filterMap Request.capacity? :=
    hx ▸ map_capacity_serveAll requests
  refine ⟨hkept, hcapacity, ?_, ?_, follows_serveAll x, ?_, ?_, ?_, ?_, ?_⟩
  · intro more
    rw [hcapacity, ← hx, ← Served.serveAll_append, map_capacity_serveAll, List.filterMap_append]
    exact List.prefix_append _ _
  · intro code hcode
    have hreachable := hkept.reachable code hcode
    exact ⟨hreachable.size_flags, hreachable.size_le, Code.patch_columns code⟩
  · intro buffer index target
    rw [perform_patch_iff]
    apply exists_congr
    intro cell
    apply and_congr_right
    intro hcell
    rw [hkept.patched_eq_false_iff hcell]
  · intro buffer index instruction
    exact perform_emit_iff
  · intro buffer index instruction hemitted
    exact cell?_of_emitted hemitted
  · intro request hfailure
    exact perform_of_isFailure hfailure
  · intro request buffer code hne hcode
    exact (performs_perform x.state request).getElem?_eq hne hcode

/-- The handle of a jump in the first buffer is taken to the second, and a target set there. -/
def foreignPatch : List Request :=
  [.create 1, .create 2, .emit 0 ⟨.jmp, 0, 8⟩, .emit 1 ⟨.jpc, 0, 4⟩, .patch 1 0 4]

theorem kept_of_foreignPatch :
    ∃ x, (Served.fresh []).serveAll perform foreignPatch = x ∧ Kept x ∧
      x.state.map (·.capacity) = [1, 2] ∧
      cell? x.state 0 0 = some ⟨⟨.jmp, 0, 8⟩, false⟩ ∧
        cell? x.state 1 0 = some ⟨⟨.jpc, 0, 4⟩, true⟩ ∧
          (∃ branch, (perform x.state (.patch 0 0 12)).1 = .patched (.ok branch)) ∧
            ¬ (∃ branch, (perform x.state (.patch 1 0 12)).1 = .patched (.ok branch)) := by
  refine ⟨_, rfl, ?_⟩
  obtain ⟨hkept, hcapacity, _, _, _, hpatch, _⟩ :=
    kept_of_requests (Eq.refl ((Served.fresh []).serveAll perform foreignPatch))
  refine ⟨hkept, hcapacity, by decide, by decide, ?_, ?_⟩
  · rw [hpatch]
    exact ⟨_, rfl, rfl, rfl⟩
  · rw [hpatch]
    rintro ⟨cell, _, _, hnone⟩
    exact absurd hnone (by decide)

end Buffers
end PL0
