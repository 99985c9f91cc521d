import PL0.Proofs.Backpatching
import PL0.Proofs.Limits
import PL0.Proofs.Lookahead
import PL0.Proofs.Phases

/-!
This module contains what happens when passes are made one after the other in the same session,
whatever their results are. Each of them only adds to what the earlier ones left. Once a pass has
come to the end of the program there is nothing left to be read but the period, so that all later
ones add the code of an empty program, as far as there is room for it.
-/

namespace PL0

namespace Session

/-- The session after `n` passes. -/
def passes (s : Session) : Nat → Session
  | 0 => s
  | n + 1 => (s.passes n).pass.2

/-- All that was there is still there, with the symbols possibly out of sight. -/
structure Extends (s t : Session) : Prop where
  code : s.code.cells.toList <+: t.code.cells.toList
  symbols : s.symbols.entries.map Symbol.unmark <+: t.symbols.entries.map Symbol.unmark
  position : s.cursor.position ≤ t.cursor.position

variable {s t : Session} {result : Except CompileError Unit}

theorem extends_of_pass (h : s.pass = (result, t)) : s.Extends t := by
  constructor
  · obtain ⟨holes, hnested, _⟩ := exists_nested_of_pass h
    obtain ⟨added, hcells, _⟩ := hnested.exists_added
    exact ⟨added, hcells.symm⟩
  · obtain ⟨added, u, henters, hphases⟩ := phases_of_pass h
    have hentries : t.symbols.entries.map Symbol.unmark = u.symbols.entries.map Symbol.unmark := by
      obtain ⟨error, rfl, rfl⟩ | ⟨q, hrun, rfl⟩ := hphases
      · rfl
      · exact map_unmark_of_body hrun
    rw [hentries, henters.entries, List.map_append]
    exact List.prefix_append _ _
  · obtain ⟨_, _, rfl⟩ | ⟨_, q, hrun, rfl⟩ := pass_cases h
    · exact Nat.le_refl _
    · exact Pass.position_le_of_run hrun

theorem capacity_passes (s : Session) (n : Nat) : (s.passes n).code.capacity = s.code.capacity := by
  induction n with
  | zero => rfl
  | succ n ih =>
    rw [← ih, passes]
    rcases hpass : (s.passes n).pass with ⟨result, t⟩
    obtain ⟨_, _, rfl⟩ | ⟨_, q, hrun, rfl⟩ := pass_cases hpass
    · rfl
    · exact (Pass.capacity_run hrun).2

end Session

theorem SymbolTable.lookup?_eq_none_of_marked {table : SymbolTable}
    (h : ∀ symbol ∈ table.entries, symbol.marked = true) (name : String) :
    table.lookup? name = none := by
  unfold lookup?
  rw [Option.map_eq_none_iff, List.findIdx?_eq_none_iff]
  intro symbol hmem
  have hmarked := h symbol (List.mem_reverse.2 hmem)
  simp [Symbol.answersTo, hmarked]

theorem SymbolTable.markAll_of_marked {table : SymbolTable}
    (h : ∀ symbol ∈ table.entries, symbol.marked = true) : table.markAll = table := by
  have hnewest : table.newest.map Symbol.mark = table.newest.map id := by
    apply List.map_congr_left
    intro symbol hmem
    rw [Symbol.mark, ← h symbol (List.mem_reverse.2 hmem)]
    rfl
  rw [markAll, hnewest, List.map_id]

namespace Session

/-- The program has come to its end: the period is next, and no name is in sight. -/
structure Ended (s : Session) : Prop where
  kind : s.kind = .period
  readable : s.cursor.contains .skip = false
  marked : ∀ symbol ∈ s.symbols.entries, symbol.marked = true

variable {s t : Session} {result : Except CompileError Unit}

theorem ended_of_pass (h : s.pass = (.ok (), t)) : t.Ended := by
  obtain ⟨_, hresult, _⟩ | ⟨hskip, q, hrun, rfl⟩ := pass_cases h
  · cases hresult
  · have hproper := Pass.run_of_step Pass.Proper Pass.Proper.step hrun (Pass.proper_program s)
    have hagenda := (Pass.agenda_eq_nil_iff_of_run hrun).2 rfl
    refine ⟨?_, ?_, ?_⟩
    · cases hproper with
      | underWay => simp at hagenda
      | ended hkind => exact hkind
    · rw [Cursor.contains, Pass.tokens_run hrun]
      exact hskip
    · obtain ⟨added, _, _, hok⟩ := exists_entries_of_pass h
      rw [hok rfl]
      intro symbol hmem
      obtain ⟨_, _, rfl⟩ := List.mem_map.1 hmem
      rfl

/-- The code of an empty program. -/
def emptyCode : List Instruction :=
  [.jump 3, .reserve 3, .system .halt]

/-- The session with an instruction appended, whether or not there is room for it. -/
def push (s : Session) (instruction : Instruction) : Session :=
  { s with code := { s.code with cells := s.code.cells.push ⟨instruction, false⟩ } }

@[simp]
theorem kind_push (s : Session) (instruction : Instruction) :
    (s.push instruction).kind = s.kind := rfl

@[simp]
theorem capacity_push (s : Session) (instruction : Instruction) :
    (s.push instruction).code.capacity = s.code.capacity := rfl

@[simp]
theorem size_push (s : Session) (instruction : Instruction) :
    (s.push instruction).code.size = s.code.size + 1 := by
  simp [push, Code.size]

@[simp]
theorem instructions_push (s : Session) (instruction : Instruction) :
    (s.push instruction).code.instructions = s.code.instructions ++ [instruction] := by
  simp [push, Code.instructions]

end Session

namespace Pass

variable {s : Session}

theorem run_emit (instruction : Instruction) (rest : List Task) (s : Session) :
    run ⟨.emit instruction :: rest, s⟩ =
      if s.code.size < s.code.capacity then run ⟨rest, s.push instruction⟩
      else (.error (.codeOverflow s.code.capacity), ⟨.emit instruction :: rest, s⟩) := by
  split
  · next hroom =>
    have hperform : (Task.emit instruction).perform s = .ok ([], s.push instruction) := by
      simp [Task.perform, Session.emit, Code.emit, hroom, Except.map, Session.push]
    exact run_eq_of_perform hperform
  · next hfull =>
    apply run_eq_of_failed
    apply step_of_error
    simp [Task.perform, Session.emit, Code.emit, hfull, Except.map]

theorem run_finish (hkind : s.kind = .period) :
    run ⟨[.finish], s⟩ =
      if s.code.size < s.code.capacity then
        (.ok (), ⟨[], { s.push (.system .halt) with symbols := s.symbols.markAll }⟩)
      else (.error (.codeOverflow s.code.capacity), ⟨[.finish], s⟩) := by
  split
  · next hroom =>
    have hperform : Task.finish.perform s =
        .ok ([], { s.push (.system .halt) with symbols := s.symbols.markAll }) := by
      simp [Task.perform, hkind, Session.emit, Code.emit, hroom, Except.map, Session.push]
    rw [run_eq_of_perform hperform]
    exact run_eq_of_done rfl
  · next hfull =>
    apply run_eq_of_failed
    apply step_of_error
    simp [Task.perform, hkind, Session.emit, Code.emit, hfull, Except.map]

theorem run_of_period (hkind : s.kind = .period) (rest : List Task) :
    run ⟨.constantPart :: rest, s⟩ = run ⟨rest, s⟩ ∧
      run ⟨.variablePart :: rest, s⟩ = run ⟨.emit (.reserve 3) :: rest, s⟩ ∧
        run ⟨.statement :: rest, s⟩ = run ⟨rest, s⟩ := by
  have hconstants : Task.constantPart.perform s = .ok ([], s) := by simp [Task.perform, hkind]
  have hvariables : Task.variablePart.perform s = .ok ([.emit (.reserve 3)], s) := by
    simp [Task.perform, hkind, Task.frameStart]
  have hstatement : Task.statement.perform s = .ok ([], s) := by
    simp [Task.perform, Task.performStatement, hkind]
  exact ⟨run_eq_of_perform hconstants, run_eq_of_perform hvariables, run_eq_of_perform hstatement⟩

theorem run_program_of_period (hkind : s.kind = .period) :
    run ⟨Task.program, s⟩ =
      if s.code.size < s.code.capacity then
        if s.code.size + 1 < s.code.capacity then
          if s.code.size + 2 < s.code.capacity then
            (.ok (), ⟨[], { ((s.push (.jump 3)).push (.reserve 3)).push (.system .halt) with
              symbols := s.symbols.markAll }⟩)
          else
            (.error (.codeOverflow s.code.capacity),
              ⟨[.finish], (s.push (.jump 3)).push (.reserve 3)⟩)
        else
          (.error (.codeOverflow s.code.capacity),
            ⟨[.emit (.reserve 3), .statement, .finish], s.push (.jump 3)⟩)
      else (.error (.codeOverflow s.code.capacity), ⟨Task.program, s⟩) := by
  have haddress : Instruction.wordAddress 1 = 3 := rfl
  rw [Task.program, haddress]
  simp only [run_emit, run_of_period, run_finish, Session.kind_push, Session.capacity_push,
    Session.size_push, hkind]
  rfl

end Pass

namespace Session

variable {s t : Session} {result : Except CompileError Unit}

/--
What a pass comes to that finds nothing to be translated: it appends the code of an empty program,
as far as there is room for it.
-/
structure Idles (s : Session) (result : Except CompileError Unit) (t : Session) : Prop where
  symbols : t.symbols = s.symbols
  cursor : t.cursor = s.cursor
  room : s.code.size + 3 ≤ s.code.capacity →
    result = .ok () ∧ t.code.instructions = s.code.instructions ++ emptyCode
  full : s.code.capacity < s.code.size + 3 →
    result = .error (.codeOverflow s.code.capacity) ∧
      t.code.instructions =
        s.code.instructions ++ emptyCode.take (s.code.capacity - s.code.size)

theorem Idles.of_full {k : Nat} (hcapacity : s.code.capacity - s.code.size = k) (hk : k < 3)
    (hsymbols : t.symbols = s.symbols) (hcursor : t.cursor = s.cursor)
    (hcode : t.code.instructions = s.code.instructions ++ emptyCode.take k) :
    s.Idles (.error (.codeOverflow s.code.capacity)) t := by
  refine ⟨hsymbols, hcursor, ?_, ?_⟩
  · intro hroom
    omega
  · intro _
    rw [hcapacity]
    exact ⟨rfl, hcode⟩

theorem Ended.idles (h : s.Ended) (hpass : s.pass = (result, t)) : s.Idles result t := by
  obtain ⟨hskip, _⟩ | ⟨_, q, hrun, rfl⟩ := pass_cases hpass
  · rw [h.readable] at hskip
    cases hskip
  · rw [Pass.run_program_of_period h.kind] at hrun
    -- There is room for all three instructions, or for two, or for one, or for none.
    split at hrun
    · split at hrun
      · split at hrun
        · next hroom =>
          cases hrun
          refine ⟨SymbolTable.markAll_of_marked h.marked, rfl, ?_, ?_⟩
          · intro _
            exact ⟨rfl, by simp [emptyCode]⟩
          · intro hfull
            omega
        · cases hrun
          exact .of_full (k := 2) (by omega) (by decide) rfl rfl (by simp [emptyCode])
      · cases hrun
        exact .of_full (k := 1) (by omega) (by decide) rfl rfl (by simp [emptyCode])
    · cases hrun
      exact .of_full (k := 0) (by omega) (by decide) rfl rfl (by simp)

theorem Idles.ended (h : s.Idles result t) (hs : s.Ended) : t.Ended := by
  constructor
  · rw [kind, h.cursor]
    exact hs.kind
  · rw [h.cursor]
    exact hs.readable
  · rw [h.symbols]
    exact hs.marked

theorem ended_passes {m n : Nat} (h : (s.passes m).pass.1 = .ok ()) (hlt : m < n) :
    (s.passes n).Ended := by
  induction hlt with
  | refl => exact ended_of_pass (Prod.ext h rfl)
  | step _ ih => exact (ih.idles rfl).ended ih

/--
However often a pass is made, it only adds to what is there, with whatever result. It takes the
names out of sight if it succeeds, and else leaves them as they are and those it declares in sight.
After one that succeeded there is nothing left for the later ones.
-/
theorem appends_of_passes (cursor : Cursor) (maxSymbols maxCodeLength n : Nat)
    (hs : (start cursor maxSymbols maxCodeLength).passes n = s) (h : s.pass = (result, t)) :
    s.Extends t ∧
      (result = .ok () → (∀ symbol ∈ t.symbols.entries, symbol.marked = true) ∧
        ∀ name, t.symbols.lookup? name = none) ∧
      (∀ error, result = .error error → ∃ added, (∀ symbol ∈ added, symbol.marked = false) ∧
        t.symbols.entries = s.symbols.entries ++ added) ∧
      s.code.capacity = maxCodeLength ∧
      ∀ m < n, ((start cursor maxSymbols maxCodeLength).passes m).pass.1 = .ok () →
        s.Idles result t := by
  refine ⟨extends_of_pass h, ?_, ?_, ?_, ?_⟩
  · rintro rfl
    have hmarked := (ended_of_pass h).marked
    exact ⟨hmarked, SymbolTable.lookup?_eq_none_of_marked hmarked⟩
  · intro error hresult
    obtain ⟨added, hadded, herror, _⟩ := exists_entries_of_pass h
    exact ⟨added, hadded, herror error hresult⟩
  · rw [← hs]
    exact capacity_passes _ n
  · intro m hlt hok
    have hended := ended_passes hok hlt
    rw [hs] at hended
    exact hended.idles h

/-- The text `write 1.` -/
def writeOne : Cursor :=
  ⟨[], [.plain .writeSym, .number 1, .plain .period]⟩

theorem appends_of_passes_writeOne :
    ((start writeOne 0 10).passes 0).pass.1 = .ok () ∧
      ((start writeOne 0 10).passes 2).code.size = 8 ∧
        ∃ t, ((start writeOne 0 10).passes 2).pass = (.error (.codeOverflow 10), t) ∧
          ((start writeOne 0 10).passes 2).Extends t ∧
            t.code.instructions =
              ((start writeOne 0 10).passes 2).code.instructions ++ [.jump 3, .reserve 3] := by
  have hok : ((start writeOne 0 10).passes 0).pass.1 = .ok () := by decide +kernel
  have hsize : ((start writeOne 0 10).passes 2).code.size = 8 := by decide +kernel
  rcases hpass : ((start writeOne 0 10).passes 2).pass with ⟨result, t⟩
  obtain ⟨hextends, _, _, hcapacity, hidles⟩ := appends_of_passes writeOne 0 10 2 rfl hpass
  obtain ⟨rfl, hcode⟩ := (hidles 0 (by decide) hok).full (by rw [hcapacity, hsize]; decide)
  rw [hcapacity, hsize] at hcode
  rw [hcapacity]
  exact ⟨hok, hsize, t, rfl, hextends, hcode⟩

end Session
end PL0
