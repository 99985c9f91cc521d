import PL0.Proofs.Backpatching
import PL0.Proofs.Phases

/-!
This module contains what the events of a compilation tell. First they tell of the names that are
declared, then of the branches that get their targets, and at last how the compilation ended. Since
the innermost open branch is always directed next, and to the end of the code, the order of the
branches is known as well.
-/

namespace PL0

/-- A branch that got its target, by the indices of the branch and of what it leads to. -/
structure Direction where
  branch : Nat
  target : Nat
  deriving DecidableEq, Repr

namespace Direction

def modifier (d : Direction) : Word :=
  Instruction.wordAddress d.target

def event (d : Direction) : Event :=
  .patched d.branch .jpc d.modifier

def cell (d : Direction) : Cell :=
  ⟨.branch d.modifier, true⟩

/-- Targets are set from the front to the back, and where two constructs end in the same place that
of the inner one is set first. -/
def Before (d e : Direction) : Prop :=
  d.target < e.target ∨ (d.target = e.target ∧ e.branch < d.branch)

end Direction

theorem Code.Nested.decreasing {base code : Code} {holes : List Nat} (h : base.Nested holes code) :
    holes.Pairwise (· > ·) ∧ ∀ hole ∈ holes, hole < code.size := by
  induction h with
  | nil more => simp
  | @cons holes code h more ih =>
    obtain ⟨hpairwise, hlt⟩ := ih
    have hsize : (code.extendOpen more).size = code.size + 1 + more.length := by
      simp [Code.extendOpen, Code.size]
      omega
    rw [List.pairwise_cons, hsize]
    refine ⟨⟨hlt, hpairwise⟩, ?_⟩
    intro hole hmem
    cases List.mem_cons.1 hmem with
    | inl heq => omega
    | inr hmem =>
      have := hlt hole hmem
      omega

namespace Session

/--
The events since `base` tell of the branches that got their targets, the newest first. A branch that
leads to the end of the code stands behind those with the indices `holes`.
-/
structure Recorded (base : Session) (directions : List Direction) (holes : List Nat) (s : Session) :
    Prop where
  log : s.log = directions.map Direction.event ++ base.log
  cell : ∀ d ∈ directions, s.code.cells[d.branch]? = some d.cell
  ordered : directions.Pairwise fun later earlier => earlier.Before later
  target_le : ∀ d ∈ directions, d.target ≤ s.code.size
  inner : ∀ d ∈ directions, d.target = s.code.size → ∀ hole ∈ holes, hole < d.branch

namespace Recorded

variable {base s : Session} {directions : List Direction} {holes : List Nat} {code : Code}

theorem start (s : Session) : s.Recorded [] [] s := by
  constructor <;> simp

theorem read (h : base.Recorded directions holes s) (reads : Bool) :
    base.Recorded directions holes (if reads then s.advance else s) := by
  cases reads <;> exact ⟨h.log, h.cell, h.ordered, h.target_le, h.inner⟩

theorem emit {instruction : Instruction} {index : Nat} (h : base.Recorded directions holes s)
    (hemit : s.code.emit instruction = .ok (index, code)) (holes' : List Nat) :
    base.Recorded directions holes' { s with code } := by
  have hsize := Code.size_emit hemit
  obtain ⟨_, _, rfl⟩ := Code.emit_eq_ok_iff.1 hemit
  refine ⟨h.log, ?_, h.ordered, ?_, ?_⟩
  · intro d hd
    have hcell := h.cell d hd
    have hlt := (Array.getElem?_eq_some_iff.1 hcell).1
    simp only [Array.getElem?_push]
    rw [if_neg (Nat.ne_of_lt hlt)]
    exact hcell
  · intro d hd
    simp only [hsize]
    exact Nat.le_succ_of_le (h.target_le d hd)
  · intro d hd htarget
    have hle := h.target_le d hd
    simp only [hsize] at htarget
    omega

theorem patch {index : Nat} {branch : Instruction}
    (hnested : base.code.Nested (index :: holes) s.code)
    (h : base.Recorded directions (index :: holes) s)
    (hpatch : s.code.patch index s.code.nextAddress = .ok (branch, code)) :
    base.Recorded (⟨index, s.code.size⟩ :: directions) holes
      { s with code, log := .patched index branch.op branch.modifier :: s.log } := by
  have hsize := Code.size_patch hpatch
  obtain ⟨after, hafter, _⟩ := hnested.exists_patch s.code.nextAddress
  have hbranch : branch = .branch s.code.nextAddress := by
    rw [hpatch] at hafter
    cases hafter
    rfl
  obtain ⟨before, hbefore, _, hopen, _, rfl⟩ := Code.patch_eq_ok_iff.1 hpatch
  have hindex := (Array.getElem?_eq_some_iff.1 hbefore).1
  obtain ⟨hdecreasing, _⟩ := hnested.decreasing
  rw [List.pairwise_cons] at hdecreasing
  refine ⟨?_, ?_, ?_, ?_, ?_⟩
  · simp only [h.log, List.map_cons, List.cons_append]
    rw [hbranch]
    rfl
  · intro d hd
    cases List.mem_cons.1 hd with
    | inl heq =>
      rw [heq, hbranch]
      exact Array.getElem?_setIfInBounds_self_of_lt hindex
    | inr hd =>
      -- The branch was open, so it is none of those that got a target before.
      have hcell := h.cell d hd
      have hne : index ≠ d.branch := by
        rintro rfl
        rw [hbefore] at hcell
        cases hcell
        cases hopen
      simp only [Array.getElem?_setIfInBounds_ne hne]
      exact hcell
  · rw [List.pairwise_cons]
    refine ⟨?_, h.ordered⟩
    intro d hd
    cases Nat.lt_or_eq_of_le (h.target_le d hd) with
    | inl hlt => exact .inl hlt
    | inr heq => exact .inr ⟨heq, h.inner d hd heq index List.mem_cons_self⟩
  · intro d hd
    simp only [hsize]
    cases List.mem_cons.1 hd with
    | inl heq => exact Nat.le_of_eq (congrArg Direction.target heq)
    | inr hd => exact h.target_le d hd
  · intro d hd htarget hole hhole
    simp only [hsize] at htarget
    cases List.mem_cons.1 hd with
    | inl heq =>
      rw [heq]
      exact hdecreasing.1 hole hhole
    | inr hd => exact h.inner d hd htarget hole (List.mem_cons_of_mem _ hhole)

end Recorded
end Session

namespace Pass

/-- The events of the second phase tell of the branches that were directed in it. -/
def Recorded (base : Session) (p : Pass) : Prop :=
  p.Matched base.code ∧ ∃ directions, base.Recorded directions (Task.branches p.agenda) p.session

theorem Recorded.step {base : Session} {p q : Pass} (hbody : p.Body) (hstep : p.step = .next q)
    (h : p.Recorded base) : q.Recorded base := by
  obtain ⟨hmatched, directions, h⟩ := h
  refine ⟨hmatched.step hbody.1 hstep, ?_⟩
  obtain ⟨task, tasks, move, t, hagenda, htask, _, hmove, happly, rfl⟩ |
    ⟨t, hagenda, _, happly, rfl⟩ := hbody.1.exists_of_step hstep
  · rw [Matched, hagenda] at hmatched
    rw [hagenda] at h
    have hexecutes : task.Executes := hbody.2 task (by simp [hagenda])
    have heffect := (hexecutes.of_move hmove).2
    -- The innermost open branch is directed, or a branch is opened, or all stay as they are.
    obtain ⟨index, rfl, rfl⟩ | ⟨_, _, _, _, _, rfl, _⟩ | ⟨hbranch, _, hmore, hplain⟩ :=
      Task.branch_cases htask hmove
    · cases Effect.apply_eq_ok_iff.1 happly with
      | patch hpatch => exact ⟨_, h.patch hmatched hpatch⟩
    · cases Effect.apply_eq_ok_iff.1 happly with
      | emit hemit => exact ⟨directions, h.emit hemit _⟩
    · rw [Task.branches_cons hbranch] at h
      rw [Task.branches_append, hmore, List.nil_append]
      generalize move.effect = effect at happly heffect hplain
      cases Effect.apply_eq_ok_iff.1 happly with
      | none => exact ⟨directions, h.read move.reads⟩
      | emit hemit => exact ⟨directions, (h.emit hemit _).read move.reads⟩
      | declare => cases heffect
      | patch | close => cases hplain
  · cases Effect.apply_eq_ok_iff.1 happly with
    | close hemit =>
      have hclosed := h.emit hemit []
      exact ⟨directions, hclosed.log, hclosed.cell, hclosed.ordered, hclosed.target_le,
        hclosed.inner⟩

theorem exists_recorded_of_run {u : Session} {q : Pass} {result : Except CompileError Unit}
    (h : run ⟨[.statement, .finish], u⟩ = (result, q)) :
    ∃ directions, u.Recorded directions (Task.branches q.agenda) q.session := by
  have hstart : u.code.Nested [] u.code := u.code.extend_nil ▸ Code.Nested.nil []
  exact ((body_statement u).run_of_step (Recorded u) Recorded.step h ⟨hstart, [], .start u⟩).2

end Pass

theorem Event.countP_directs_event (directions : List Direction) (i : Nat) :
    (directions.map Direction.event).countP (directs i) =
      (directions.map Direction.branch).count i := by
  rw [List.countP_map, List.count, List.countP_map]
  rfl

theorem Event.countP_directs_declared (symbols : List Symbol) (i : Nat) :
    (symbols.map declared).countP (directs i) = 0 := by
  simp [List.countP_map, Function.comp_def, directs]

namespace Session

/--
The branches that got their targets are known: which ones they are, what they lead to and in which
order they got it.
-/
structure Directs (s : Session) (directions : List Direction) : Prop where
  distinct : (directions.map Direction.branch).Nodup
  cell : ∀ d ∈ directions, s.code.cells[d.branch]? = some d.cell
  complete : ∀ i cell, s.code.cells[i]? = some cell → cell.patched = true →
    ∃ d ∈ directions, d.branch = i
  ordered : directions.Pairwise Direction.Before
  target_le : ∀ d ∈ directions, d.target ≤ s.code.size

variable {cursor : Cursor} {maxSymbols maxCodeLength : Nat} {result : Except CompileError Unit}
  {t : Session}

theorem exists_directs_of_pass (h : (start cursor maxSymbols maxCodeLength).pass = (result, t)) :
    ∃ directions, t.Directs directions ∧
      t.events = (t.symbols.entries.map Symbol.unmark).map Event.declared ++
        directions.map Direction.event := by
  have hdirected := directed_of_pass (directed_start _ _ _) h
  obtain ⟨added, u, henters, hphases⟩ := phases_of_pass h
  have hentries : u.symbols.entries.map Symbol.unmark = added := by
    rw [henters.entries]
    exact Symbol.map_unmark henters.unmarked
  have hevents : u.events = added.map Event.declared := henters.events
  obtain ⟨directions, holes, hrecorded, hsymbols⟩ : ∃ directions holes,
      u.Recorded directions holes t ∧
        t.symbols.entries.map Symbol.unmark = u.symbols.entries.map Symbol.unmark := by
    obtain ⟨error, rfl, rfl⟩ | ⟨q, hrun, rfl⟩ := hphases
    · exact ⟨[], [], .start t, rfl⟩
    · obtain ⟨directions, hrecorded⟩ := Pass.exists_recorded_of_run hrun
      exact ⟨directions, _, hrecorded, map_unmark_of_body hrun⟩
  have hlog : t.events = added.map Event.declared ++ directions.reverse.map Direction.event := by
    rw [events, hrecorded.log, List.reverse_append, List.map_reverse]
    exact congrArg (· ++ _) hevents
  have hcount : ∀ i, (directions.map Direction.branch).count i = (t.code.isPatched i).toNat := by
    intro i
    have hreverse : t.events.countP (Event.directs i) = t.log.countP (Event.directs i) :=
      List.countP_reverse
    rw [hlog, List.countP_append, Event.countP_directs_declared, Event.countP_directs_event,
      List.map_reverse, List.count_reverse, Nat.zero_add, hdirected.once] at hreverse
    exact hreverse
  refine ⟨directions.reverse, ⟨?_, ?_, ?_, ?_, ?_⟩, ?_⟩
  · rw [List.map_reverse, List.nodup_reverse, List.nodup_iff_count_le_one]
    intro i
    rw [hcount i]
    exact Bool.toNat_le _
  · simpa using hrecorded.cell
  · intro i cell hcell hpatched
    have hmem : i ∈ directions.map Direction.branch := by
      rw [← List.count_pos_iff, hcount i, Code.isPatched, hcell, Option.any_some, hpatched]
      exact Nat.one_pos
    simpa using hmem
  · rw [List.pairwise_reverse]
    exact hrecorded.ordered
  · simpa using hrecorded.target_le
  · rw [hsymbols, hentries]
    exact hlog

variable {tokens : List Token} {directions : List Direction}

theorem Directs.jpc_iff (hdirects : t.Directs directions)
    (h : (start ⟨[], tokens⟩ maxSymbols maxCodeLength).pass = (.ok (), t)) {i : Nat}
    {instruction : Instruction} (hi : t.code.instructions[i]? = some instruction) :
    instruction.op = .jpc ↔ ∃ d ∈ directions, d.branch = i := by
  rw [Code.instructions, List.getElem?_map, Option.map_eq_some_iff] at hi
  obtain ⟨cell, hcell, rfl⟩ := hi
  rw [Array.getElem?_toList] at hcell
  constructor
  · intro hop
    apply hdirects.complete i cell hcell
    obtain rfl | ⟨instruction, rfl⟩ := cell_of_pass h hcell
    · have hmem := Array.mem_of_getElem? hcell
      have hnone := (countP_isOpen_of_pass h).2 rfl
      exact absurd Cell.isOpen_hole (Array.countP_eq_zero.1 hnone _ hmem)
    · exact beq_iff_eq.2 hop
  · rintro ⟨d, hd, rfl⟩
    rw [hdirects.cell d hd] at hcell
    cases hcell
    rfl

theorem Directs.modifier_ordered (hdirects : t.Directs directions)
    (h : (start ⟨[], tokens⟩ maxSymbols maxCodeLength).pass = (result, t)) :
    (tokens.length ≤ 715827880 →
      directions.Pairwise fun d e => d.modifier.toInt ≤ e.modifier.toInt) ∧
    (tokens.length + 2 < UInt32.size →
      directions.Pairwise fun d e => d.modifier = e.modifier → e.branch < d.branch) := by
  have hsize := size_code_le_of_pass h
  constructor
  · intro hlength
    have htoInt : ∀ d ∈ directions, d.modifier.toInt = 3 * (d.target : Int) := by
      intro d hd
      have htarget := Nat.le_trans (hdirects.target_le d hd) hsize
      exact Instruction.toInt_wordAddress_of_le hlength htarget
    refine hdirects.ordered.imp_of_mem ?_
    intro d e hd he hbefore
    rw [htoInt d hd, htoInt e he]
    unfold Direction.Before at hbefore
    omega
  · intro hlength
    refine hdirects.ordered.imp_of_mem ?_
    intro d e hd he hbefore hmodifier
    have hd := hdirects.target_le d hd
    have he := hdirects.target_le e he
    have htarget := Instruction.wordAddress_eq_iff.1 hmodifier
    rw [Nat.mod_eq_of_lt (by omega), Nat.mod_eq_of_lt (by omega)] at htarget
    unfold Direction.Before at hbefore
    omega

end Session

theorem Fault.code_eq_succ_iff {fault : Fault} {i : Nat} :
    fault.code = i + 1 ↔ all[i]? = some fault := by
  constructor
  · intro hcode
    have hat : all[fault.code - 1]? = some fault := by cases fault <;> rfl
    rwa [hcode, Nat.add_sub_cancel] at hat
  · intro hat
    have hcodes : all.map code = List.range' 1 all.length := by decide
    have hcode := congrArg (·[i]?) hcodes
    obtain ⟨hi, _⟩ := List.getElem?_eq_some_iff.1 hat
    rw [List.getElem?_map, hat, List.getElem?_range' hi] at hcode
    rw [Option.map_some, Option.some.injEq] at hcode
    omega

theorem CompileError.fault?_eq_some_iff {error : CompileError} {fault : Fault} :
    error.fault? = some fault ↔ error = .fault fault := by
  cases error <;> simp [fault?]

theorem Event.filter_reaches_debug (events : List Event) :
    events.filter (·.reaches .debug) = events := by
  rw [List.filter_eq_self]
  intro event _
  simp [reaches, Severity.rank]

/--
The events of a compilation: none if the tokens are refused; else one for each symbol of the table,
in order, one for each branch with a target, the inner ones first, and one that tells the outcome.
If that is a fault, its number is told, and the faults are numbered from one on.
-/
theorem events_of_compile (tokens : List Token) (limits : Limits) :
    (∀ error, Cursor.ofTokens tokens limits.maxTokens = .error error →
      (compile tokens limits).events.filter (·.reaches .debug) = []) ∧
    ∀ cursor, Cursor.ofTokens tokens limits.maxTokens = .ok cursor →
      ∃ result t directions closing,
        (Session.start cursor limits.maxSymbols limits.maxCodeLength).pass = (result, t) ∧
        (compile tokens limits).result = result.map (fun _ => t.target) ∧
        (compile tokens limits).events.filter (·.reaches .debug) =
          (t.symbols.entries.map Symbol.unmark).map Event.declared ++
            directions.map Direction.event ++ [closing] ∧
        t.Directs directions ∧
        (tokens.length ≤ 715827880 →
          directions.Pairwise fun d e => d.modifier.toInt ≤ e.modifier.toInt) ∧
        (tokens.length + 2 < UInt32.size →
          directions.Pairwise fun d e => d.modifier = e.modifier → e.branch < d.branch) ∧
        (∀ p, (compile tokens limits).result = .ok p →
          closing = .finished tokens.length p.code.length p.symbols.length ∧
            ∀ i instruction, p.code[i]? = some instruction →
              (instruction.op = .jpc ↔ ∃ d ∈ directions, d.branch = i)) ∧
        ∀ error, (compile tokens limits).result = .error error →
          ∃ number, closing = .aborted error number t.code.size t.symbols.size ∧
            (∀ n, number = some n ↔ ∃ fault, error = .fault fault ∧ fault.code = n) ∧
              ∀ i, number = some (i + 1) ↔
                ∃ fault, error = .fault fault ∧ Fault.all[i]? = some fault := by
  rw [Event.filter_reaches_debug]
  constructor
  · intro error hcursor
    rw [compile_of_error hcursor]
  · intro cursor hcursor
    obtain ⟨_, _, rfl⟩ := Cursor.ofTokens_eq_ok_iff.1 hcursor
    rcases hpass : (Session.initial tokens limits).pass with ⟨result, t⟩
    obtain ⟨directions, hdirects, hevents⟩ := Session.exists_directs_of_pass hpass
    obtain ⟨hmonotone, hinner⟩ := hdirects.modifier_ordered hpass
    rw [compile_of_pass hcursor hpass]
    refine ⟨result, t, directions, t.closing tokens.length result, hpass, rfl, ?_, hdirects,
      hmonotone, hinner, ?_, ?_⟩
    · rw [hevents]
    · intro p hp
      obtain ⟨_, rfl, rfl⟩ := Except.map_eq_ok_iff.1 hp
      refine ⟨?_, ?_⟩
      · simp [Session.closing, Session.target]
      · intro i instruction hi
        exact hdirects.jpc_iff hpass hi
    · intro error herror
      obtain rfl := Except.map_eq_error_iff.1 herror
      have hnumber (n : Nat) : error.fault?.map Fault.code = some n ↔
          ∃ fault, error = .fault fault ∧ fault.code = n := by
        simp only [Option.map_eq_some_iff, CompileError.fault?_eq_some_iff]
      refine ⟨_, rfl, hnumber, ?_⟩
      intro i
      simp only [hnumber, Fault.code_eq_succ_iff]

/-- The text `const c = 1; if even c then if even 2 then fi fi.` with two constructs of one end. -/
def nestedConditions : List Token :=
  [.plain .constSym, .ident "c", .plain .eql, .number 1, .plain .semicolon,
   .plain .ifSym, .plain .evenSym, .ident "c", .plain .thenSym,
   .plain .ifSym, .plain .evenSym, .number 2, .plain .thenSym, .plain .fiSym, .plain .fiSym,
   .plain .period]

theorem events_of_compile_nestedConditions :
    Cursor.ofTokens nestedConditions 20 = .ok ⟨[], nestedConditions⟩ ∧
      (compile nestedConditions ⟨1, 9, 20⟩).events =
        [.declared (.const "c" 1), .patched 7 .jpc 24, .patched 4 .jpc 24, .finished 16 9 1] ∧
      ∃ t directions, (Session.start ⟨[], nestedConditions⟩ 1 9).pass = (.ok (), t) ∧
        t.Directs directions ∧
          directions.Pairwise fun d e => d.modifier = e.modifier → e.branch < d.branch := by
  have hcursor : Cursor.ofTokens nestedConditions 20 = .ok ⟨[], nestedConditions⟩ := rfl
  refine ⟨hcursor, by decide +kernel, ?_⟩
  obtain ⟨result, t, directions, _, hpass, _, _, hdirects, _, hinner, _⟩ :=
    (events_of_compile nestedConditions ⟨1, 9, 20⟩).2 _ hcursor
  have hresult : (Session.start ⟨[], nestedConditions⟩ 1 9).pass.1 = .ok () := by decide +kernel
  have hok : result = .ok () := (congrArg Prod.fst hpass).symm.trans hresult
  rw [hok] at hpass
  exact ⟨t, directions, hpass, hdirects, hinner (by decide)⟩

end PL0
