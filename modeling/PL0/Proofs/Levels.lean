import PL0.Proofs.Addresses

/-!
This module contains the levels. How many levels down a variable is found is the difference between
the level of the block and that of the symbol. A program has one block, so the difference is always
zero: whatever the result of a pass is, its symbols are on the level of the block, and none of its
instructions leads to another one.
-/

namespace PL0

namespace Scope

def Flat (scope : Scope) : Prop :=
  ∀ (name : String) (location : Location), scope name = some (.var location) → location.levels = 0

variable {scope : Scope} {name : String}

theorem Flat.level_store {location : Location} (hscope : scope.Flat)
    (h : scope.variable name = .ok location) : (Instruction.store location).level = 0 := by
  unfold Scope.variable at h
  split at h
  · cases h
  · cases h
  · next hname =>
    cases h
    exact hscope name _ hname

theorem Flat.level_fetch {instruction : Instruction} (hscope : scope.Flat)
    (h : scope.fetch name = .ok instruction) : instruction.level = 0 := by
  unfold fetch at h
  split at h
  · cases h
  · next binding hname =>
    cases h
    cases binding with
    | const value => rfl
    | var location => exact hscope name location hname

end Scope

def Effect.Flat : Effect → Prop
  | emit instruction => instruction.level = 0
  | declare symbol => symbol.level = blockLevel
  | none | patch _ | close => True

namespace Task

def Flat : Task → Prop
  | emit instruction => instruction.level = 0
  | declare symbol => symbol.level = blockLevel
  | expect .. | patch _ | constantPart | constantName | constantValue _ | moreConstants
  | variablePart | variableName _ | moreVariables _ | statement | moreStatements | readTarget
  | receive _ | thenPart | loopPart _ | condition | relation | expression | moreTerms | term
  | moreFactors | factor | finish => True

variable {task : Task} {token : Token} {scope : Scope} {size : Nat} {move : Move}

theorem Flat.of_move (hscope : scope.Flat) (htask : task.Flat)
    (h : task.move token scope size = .ok move) :
    (∀ next ∈ move.more, next.Flat) ∧ move.effect.Flat := by
  revert h
  fun_cases Task.move task token scope size
  all_goals
    rintro ⟨⟩
    try simp_all [Flat, Effect.Flat, Symbol.const, Symbol.var, Instruction.system,
      Instruction.operate, Instruction.literal, Instruction.reserve, Instruction.jump,
      Instruction.hole]
  -- What is left are the instructions that are about a name.
  · next hvariable => exact hscope.level_store hvariable
  · next hvariable => exact hscope.level_store hvariable
  · next hfetch => exact hscope.level_fetch hfetch

end Task

/-- The symbols are on the level of the block, and the instructions do not leave it. -/
structure Session.Flat (s : Session) : Prop where
  code : ∀ instruction ∈ s.code.instructions, instruction.level = 0
  symbols : ∀ symbol ∈ s.symbols.entries, symbol.level = blockLevel

theorem Session.Flat.scope {s : Session} (h : s.Flat) : s.symbols.scope.Flat := by
  intro name location hname
  obtain ⟨symbol, hfind, hbinding⟩ := Option.map_eq_some_iff.1 hname
  have hmem : symbol ∈ s.symbols.entries := List.mem_reverse.2 (List.mem_of_find?_eq_some hfind)
  unfold Symbol.binding at hbinding
  split at hbinding
  · cases hbinding
  · cases hbinding
    rw [Symbol.location_of_level (h.symbols symbol hmem)]

theorem Effect.Flat.apply {effect : Effect} {s t : Session} (heffect : effect.Flat)
    (happly : effect.apply s = .ok t) (h : s.Flat) : t.Flat := by
  cases apply_eq_ok_iff.1 happly with
  | none => exact h
  | emit hemit => exact ⟨Code.forall_instructions_emit hemit heffect h.code, h.symbols⟩
  | declare hdeclare =>
    refine ⟨h.code, ?_⟩
    rw [SymbolTable.entries_declare hdeclare, List.forall_mem_append, List.forall_mem_singleton]
    exact ⟨h.symbols, heffect⟩
  | patch hpatch =>
    refine ⟨Code.forall_instructions_patch hpatch ?_ h.code, h.symbols⟩
    intro _ hlevel _
    exact hlevel
  | close hemit =>
    refine ⟨Code.forall_instructions_emit hemit rfl h.code, ?_⟩
    rw [SymbolTable.entries_markAll, List.forall_mem_map]
    exact h.symbols

namespace Pass

structure Flat (p : Pass) : Prop where
  session : p.session.Flat
  tasks : ∀ task ∈ p.agenda, task.Flat

theorem Flat.step {p q : Pass} (hstep : p.step = .next q) (h : p.Flat) : q.Flat := by
  obtain ⟨task, rest, move, t, _, htask, hmove, happly, rfl, htasks⟩ :=
    exists_of_step_of_forall h.tasks hstep
  obtain ⟨hmore, heffect⟩ := htask.of_move h.session.scope hmove
  have ht := heffect.apply happly h.session
  refine ⟨?_, htasks hmore⟩
  cases move.reads <;> exact ⟨ht.code, ht.symbols⟩

end Pass

theorem Session.flat_of_pass {cursor : Cursor} {maxSymbols maxCodeLength : Nat}
    {result : Except CompileError Unit} {t : Session}
    (h : (start cursor maxSymbols maxCodeLength).pass = (result, t)) : t.Flat := by
  have hstart : (start cursor maxSymbols maxCodeLength).Flat := by
    constructor
    all_goals
      intro _ hmem
      cases hmem
  obtain ⟨_, _, rfl⟩ | ⟨_, q, hrun, rfl⟩ := pass_cases h
  · exact hstart
  · refine (Pass.run_of_step Pass.Flat Pass.Flat.step hrun ⟨hstart, ?_⟩).session
    simp only [Task.program, List.forall_mem_cons]
    exact ⟨rfl, trivial, trivial, trivial, trivial, by simp⟩

/-- However long a program is, its code stays on one level. -/
theorem level_of_compile {tokens : List Token} {limits : Limits} {p : TargetProgram}
    (h : (compile tokens limits).result = .ok p) :
    (∀ instruction ∈ p.code, instruction.level = 0) ∧
      ∀ symbol ∈ p.symbols, symbol.level = blockLevel := by
  cases hcursor : Cursor.ofTokens tokens limits.maxTokens with
  | error error =>
    rw [compile_of_error hcursor] at h
    cases h
  | ok cursor =>
    rcases hpass : (Session.start cursor limits.maxSymbols limits.maxCodeLength).pass with
      ⟨result, t⟩
    rw [compile_of_pass hcursor hpass] at h
    obtain ⟨_, _, rfl⟩ := Except.map_eq_ok_iff.1 h
    have hflat := Session.flat_of_pass hpass
    exact ⟨hflat.code, hflat.symbols⟩

end PL0
