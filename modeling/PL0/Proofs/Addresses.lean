import PL0.Proofs.OutputSize
import PL0.Proofs.Phases

/-!
This module contains the addresses that a pass computes. Variables get one place of the frame after
the other, the frame has room for all of them, and branches lead to instructions by their word
addresses. As long as the tokens are not too many, no address is cut off.
-/

namespace PL0

namespace Symbol

/-- The place in the frame of a variable that comes behind `n` others. -/
def slot (n : Nat) : Word :=
  Int32.ofNat (3 + n)

theorem slot_succ (n : Nat) : slot n + 1 = slot (n + 1) := by
  unfold slot
  rw [← Nat.add_assoc, Int32.ofNat_add (3 + n) 1]
  rfl

theorem toInt_slot {n : Nat} (h : 3 + n < 2147483648) : (slot n).toInt = 3 + n :=
  Int32.toInt_ofNat_of_lt h

end Symbol

namespace SymbolTable

/-- The variables in the order of their declarations. -/
def vars (table : SymbolTable) : List Symbol :=
  table.entries.filter (·.kind = .var)

/-- The variables have one place after the other. -/
def Slotted (table : SymbolTable) : Prop :=
  ∀ i symbol, table.vars[i]? = some symbol → symbol.address = Symbol.slot i

variable {table after : SymbolTable} {symbol : Symbol} {id : Nat}

theorem vars_declare (h : table.declare symbol = .ok (id, after)) :
    after.vars =
      table.vars ++ if symbol.kind = .var then [{ symbol with marked := false }] else [] := by
  unfold vars
  rw [entries_declare h, List.filter_append]
  split <;> simp_all

theorem vars_markAll (table : SymbolTable) : table.markAll.vars = table.vars.map Symbol.mark := by
  unfold vars
  rw [entries_markAll, List.filter_map]
  rfl

theorem Slotted.declare (h : table.Slotted)
    (hsymbol : symbol.kind = .var → symbol.address = Symbol.slot table.vars.length)
    (hdeclare : table.declare symbol = .ok (id, after)) : after.Slotted := by
  intro i other hother
  rw [vars_declare hdeclare, List.getElem?_append] at hother
  split at hother
  · exact h i other hother
  · next hlength =>
    split at hother
    · next hkind =>
      rw [List.getElem?_singleton] at hother
      split at hother
      · cases hother
        have hlast : i = table.vars.length := by omega
        rw [hlast]
        exact hsymbol hkind
      · cases hother
    · cases hother

theorem Slotted.markAll (h : table.Slotted) : table.markAll.Slotted := by
  intro i symbol hsymbol
  rw [vars_markAll, List.getElem?_map, Option.map_eq_some_iff] at hsymbol
  obtain ⟨other, hother, rfl⟩ := hsymbol
  exact h i other hother

end SymbolTable

/-- The number of variables that are entered. -/
def Effect.vars : Effect → Nat
  | declare symbol => if symbol.kind = .var then 1 else 0
  | none | emit _ | patch _ | close => 0

theorem Effect.length_vars_apply {effect : Effect} {s t : Session} (h : effect.apply s = .ok t) :
    t.symbols.vars.length = s.symbols.vars.length + effect.vars := by
  cases apply_eq_ok_iff.1 h with
  | none | emit | patch => rfl
  | @declare symbol _ _ hdeclare =>
    rw [SymbolTable.vars_declare hdeclare, List.length_append, vars]
    split <;> rfl
  | close => rw [SymbolTable.vars_markAll, List.length_map, vars]; rfl

namespace Task

/--
The next variable that the tasks declare gets the place behind `n` others, and so does the end of
the frame, behind which there are no such tasks.
-/
def Places : List Task → Nat → Prop
  | [], _ => True
  | task :: rest, n =>
    match task with
    | declare symbol =>
      (symbol.kind = .var → symbol.address = Symbol.slot n) ∧
        Places rest (n + if symbol.kind = .var then 1 else 0)
    | emit instruction =>
      (instruction.op = .inc → instruction.modifier = Symbol.slot n ∧ rest = []) ∧ Places rest n
    | variablePart => n = 0 ∧ rest = []
    | variableName address | moreVariables address => address = Symbol.slot n ∧ rest = []
    | expect .. | constantPart | constantName | constantValue _ | moreConstants => Places rest n
    | patch _ | statement | moreStatements | readTarget | receive _ | thenPart | loopPart _
    | condition | relation | expression | moreTerms | term | moreFactors | factor | finish => False

theorem Places.of_move {task : Task} {token : Token} {scope : Scope} {size n : Nat} {move : Move}
    {rest : List Task} (h : Places (task :: rest) n)
    (hmove : task.move token scope size = .ok move) :
    Places (move.more ++ rest) (n + move.effect.vars) ∧
      (∀ symbol, move.effect = .declare symbol → symbol.kind = .var →
        symbol.address = Symbol.slot n) ∧
        ∀ instruction, move.effect = .emit instruction → instruction.op = .inc →
          instruction.modifier = Symbol.slot n ∧ move.more ++ rest = [] := by
  revert h hmove
  fun_cases Task.move task token scope size
  all_goals
    rintro h ⟨⟩
    try simp_all [Places, Effect.vars, Symbol.const, Symbol.var, Instruction.reserve,
      Symbol.slot_succ]
  -- With no variable before it, the first place is the start of the frame.
  all_goals rfl

end Task

namespace Code

variable {code after : Code} {index : Nat} {P : Instruction → Prop}

theorem forall_instructions_emit {instruction : Instruction}
    (hemit : code.emit instruction = .ok (index, after)) (hinstruction : P instruction)
    (h : ∀ other ∈ code.instructions, P other) : ∀ other ∈ after.instructions, P other := by
  rw [instructions_emit hemit, List.forall_mem_append, List.forall_mem_singleton]
  exact ⟨h, hinstruction⟩

theorem forall_instructions_patch {target : Word} {branch : Instruction}
    (hpatch : code.patch index target = .ok (branch, after))
    (hbranch : ∀ old, P old → old.op.isBranch = true → P { old with modifier := target })
    (h : ∀ other ∈ code.instructions, P other) : ∀ other ∈ after.instructions, P other := by
  obtain ⟨cell, hcell, hop, _, rfl, rfl⟩ := patch_eq_ok_iff.1 hpatch
  simp only [instructions, Array.toList_setIfInBounds, List.forall_mem_map] at h ⊢
  intro other hother
  cases List.mem_or_eq_of_mem_set hother with
  | inl hmem => exact h other hmem
  | inr heq =>
    rw [heq]
    exact hbranch _ (h cell (Array.mem_toList_iff.2 (Array.mem_of_getElem? hcell))) hop

end Code

/-- The variables have their places, and the frame ends behind them. -/
structure Session.Framed (s : Session) : Prop where
  slotted : s.symbols.Slotted
  frame : ∀ instruction ∈ s.code.instructions, instruction.op = .inc →
    instruction.modifier = Symbol.slot s.symbols.vars.length

namespace Pass

/-- In the first phase, nothing is left to be done once the frame has been reserved. -/
structure Numbered (p : Pass) : Prop where
  framed : p.session.Framed
  places : Task.Places p.agenda p.session.symbols.vars.length
  frame_last : ∀ instruction ∈ p.session.code.instructions, instruction.op = .inc → p.agenda = []

theorem numbered_declarations (cursor : Cursor) (maxSymbols maxCodeLength : Nat) :
    Numbered ⟨Task.declarations, .start cursor maxSymbols maxCodeLength⟩ := by
  refine ⟨⟨?_, ?_⟩, ?_, ?_⟩
  · intro i symbol hsymbol
    cases hsymbol
  · intro instruction hmem
    cases hmem
  · simp [Task.Places, Task.declarations, Instruction.jump, Session.start, SymbolTable.empty,
      SymbolTable.vars, SymbolTable.entries]
  · intro instruction hmem
    cases hmem

theorem Numbered.step {p q : Pass} (hdeclaring : p.Declaring) (hstep : p.step = .next q)
    (h : p.Numbered) : q.Numbered := by
  obtain ⟨task, rest, move, t, hagenda, htask, hmove, happly, rfl, _⟩ :=
    exists_of_step_of_forall hdeclaring hstep
  have hplaces := h.places
  rw [hagenda] at hplaces
  obtain ⟨hplaces, hdeclare, hemit⟩ := hplaces.of_move hmove
  rw [← Effect.length_vars_apply happly] at hplaces
  have heffect := (htask.of_move hmove).2
  have hslotted : t.symbols.Slotted := by
    generalize move.effect = effect at happly heffect hdeclare
    cases Effect.apply_eq_ok_iff.1 happly with
    | none | emit => exact h.framed.slotted
    | declare hsymbols => exact h.framed.slotted.declare (hdeclare _ rfl) hsymbols
    | patch | close => cases heffect
  have hframe : ∀ instruction ∈ t.code.instructions, instruction.op = .inc →
      instruction.modifier = Symbol.slot t.symbols.vars.length ∧ move.more ++ rest = [] := by
    -- There is a task left, so the frame has not been reserved yet.
    have hnone : ∀ instruction ∈ p.session.code.instructions, instruction.op = .inc →
        instruction.modifier = Symbol.slot t.symbols.vars.length ∧ move.more ++ rest = [] := by
      intro instruction hmem hinc
      rw [h.frame_last instruction hmem hinc] at hagenda
      cases hagenda
    generalize move.effect = effect at happly heffect hemit
    cases Effect.apply_eq_ok_iff.1 happly with
    | none | declare => exact hnone
    | emit hcode => exact Code.forall_instructions_emit hcode (hemit _ rfl) hnone
    | patch | close => cases heffect
  refine ⟨⟨?_, ?_⟩, ?_, ?_⟩
  all_goals simp only [Session.symbols_read, Session.code_read]
  · exact hslotted
  · intro instruction hmem hinc
    exact (hframe instruction hmem hinc).1
  · exact hplaces
  · intro instruction hmem hinc
    exact (hframe instruction hmem hinc).2

end Pass

theorem Effect.Executes.framed_apply {effect : Effect} {s t : Session} (heffect : effect.Executes)
    (happly : effect.apply s = .ok t) (h : s.Framed) : t.Framed := by
  cases apply_eq_ok_iff.1 happly with
  | none => exact h
  | emit hemit =>
    refine ⟨h.slotted, Code.forall_instructions_emit hemit ?_ h.frame⟩
    intro hinc
    exact absurd hinc heffect
  | declare => cases heffect
  | patch hpatch =>
    refine ⟨h.slotted, Code.forall_instructions_patch hpatch ?_ h.frame⟩
    intro old _ hbranch hinc
    rw [show old.op = .inc from hinc] at hbranch
    cases hbranch
  | close hemit =>
    refine ⟨h.slotted.markAll, ?_⟩
    rw [SymbolTable.vars_markAll, List.length_map]
    refine Code.forall_instructions_emit hemit ?_ h.frame
    rintro ⟨⟩

theorem Pass.framed_step {p q : Pass} (hbody : p.Body) (hstep : p.step = .next q)
    (h : p.session.Framed) : q.session.Framed := by
  obtain ⟨task, rest, move, t, _, htask, hmove, happly, rfl, _⟩ :=
    exists_of_step_of_forall hbody.2 hstep
  have ht := (htask.of_move hmove).2.framed_apply happly h
  cases move.reads <;> exact ⟨ht.slotted, ht.frame⟩

theorem Session.framed_of_pass {cursor : Cursor} {maxSymbols maxCodeLength : Nat}
    {result : Except CompileError Unit} {t : Session}
    (h : (start cursor maxSymbols maxCodeLength).pass = (result, t)) : t.Framed := by
  have hstart := Pass.numbered_declarations cursor maxSymbols maxCodeLength
  obtain ⟨_, _, rfl⟩ | ⟨_, q, hrun, rfl⟩ := pass_cases h
  · exact hstart.framed
  · obtain ⟨result', p, hfirst, hphases⟩ := Pass.phases_of_run hrun
    have hnumbered : p.Numbered :=
      (Pass.declaring_declarations _).run_of_step Pass.Numbered Pass.Numbered.step hfirst hstart
    obtain ⟨error, _, rfl, rfl⟩ | ⟨_, _, hbody⟩ := hphases
    · exact hnumbered.framed
    · exact (Pass.body_statement _).run_of_step (·.session.Framed) Pass.framed_step hbody
        hnumbered.framed

namespace Instruction

/-- A branch leads to one of the first instructions, or right behind them. -/
def Aims (instruction : Instruction) (size : Nat) : Prop :=
  instruction.op.isBranch = true → ∃ index ≤ size, instruction.modifier = wordAddress index

variable {instruction : Instruction} {size size' : Nat}

theorem Aims.mono (h : instruction.Aims size) (hle : size ≤ size') : instruction.Aims size' := by
  intro hbranch
  obtain ⟨index, hindex, hmodifier⟩ := h hbranch
  exact ⟨index, Nat.le_trans hindex hle, hmodifier⟩

end Instruction

def Code.Aimed (code : Code) : Prop :=
  ∀ instruction ∈ code.instructions, instruction.Aims code.size

namespace Task

/-- Branches that are to be emitted lead no further than behind themselves. -/
def Aims (task : Task) (size : Nat) : Prop :=
  match task with
  | emit instruction => instruction.Aims (size + 1)
  | loopPart start => ∃ index ≤ size, start = Instruction.wordAddress index
  | expect .. | declare _ | patch _ | constantPart | constantName | constantValue _ | moreConstants
  | variablePart | variableName _ | moreVariables _ | statement | moreStatements | readTarget
  | receive _ | thenPart | condition | relation | expression | moreTerms | term | moreFactors
  | factor | finish => True

variable {task : Task} {token : Token} {scope : Scope} {size size' : Nat} {move : Move}

theorem Aims.mono (h : task.Aims size) (hle : size ≤ size') : task.Aims size' := by
  cases task with
  | emit instruction => exact Instruction.Aims.mono h (Nat.succ_le_succ hle)
  | loopPart start =>
    obtain ⟨index, hindex, hstart⟩ := h
    exact ⟨index, Nat.le_trans hindex hle, hstart⟩
  | _ => trivial

theorem Aims.of_move (htask : task.Aims size) (h : task.move token scope size = .ok move) :
    (∀ next ∈ move.more, next.Aims size) ∧
      ∀ instruction, move.effect = .emit instruction → instruction.Aims (size + 1) := by
  revert h
  fun_cases Task.move task token scope size
  all_goals
    rintro ⟨⟩
    try simp_all [Aims, Instruction.Aims, Opcode.isBranch, Instruction.store, Instruction.system,
      Instruction.operate, Instruction.literal, Instruction.reserve, Instruction.jump,
      Instruction.hole]
  -- An open branch leads to the first instruction until it gets its target.
  · exact ⟨size, Nat.le_refl _, rfl⟩
  · exact ⟨0, Nat.zero_le _, rfl⟩
  · obtain ⟨index, hindex, rfl⟩ := htask
    exact ⟨⟨index, Nat.le_succ_of_le hindex, rfl⟩, 0, Nat.zero_le _, rfl⟩
  · next hfetch => cases Scope.op_of_fetch hfetch <;> simp_all

end Task

theorem Code.Aimed.emit {code after : Code} {instruction : Instruction} {index : Nat}
    (h : code.Aimed) (hemit : code.emit instruction = .ok (index, after))
    (hinstruction : instruction.Aims (code.size + 1)) : after.Aimed := by
  unfold Aimed
  rw [size_emit hemit]
  refine forall_instructions_emit hemit hinstruction ?_
  intro other hmem
  exact (h other hmem).mono (Nat.le_succ _)

theorem Effect.aimed_apply {effect : Effect} {s t : Session}
    (heffect : ∀ instruction, effect = .emit instruction → instruction.Aims (s.code.size + 1))
    (happly : effect.apply s = .ok t) (h : s.code.Aimed) : t.code.Aimed := by
  cases apply_eq_ok_iff.1 happly with
  | none | declare => exact h
  | emit hemit => exact h.emit hemit (heffect _ rfl)
  | patch hpatch =>
    unfold Code.Aimed
    rw [Code.size_patch hpatch]
    refine Code.forall_instructions_patch hpatch ?_ h
    intro _ _ _ _
    exact ⟨s.code.size, Nat.le_refl _, rfl⟩
  | close hemit =>
    refine h.emit hemit ?_
    rintro ⟨⟩

namespace Pass

/-- The branches in the code lead into it, and so do those that are to be emitted. -/
structure Aimed (p : Pass) : Prop where
  code : p.session.code.Aimed
  tasks : ∀ task ∈ p.agenda, task.Aims p.session.code.size

theorem Aimed.step {p q : Pass} (hstep : p.step = .next q) (h : p.Aimed) : q.Aimed := by
  obtain ⟨task, rest, more, t, hagenda, hperform, rfl⟩ := exists_of_step hstep
  obtain ⟨move, u, hmove, happly, rfl, rfl⟩ := Task.perform_eq_ok_iff.1 hperform
  have htasks := h.tasks
  rw [hagenda, List.forall_mem_cons] at htasks
  obtain ⟨hmore, heffect⟩ := htasks.1.of_move hmove
  have hle : p.session.code.size ≤ u.code.size := by
    rw [Effect.size_code_apply happly]
    exact Nat.le_add_right _ _
  constructor
  · rw [Session.code_read]
    exact Effect.aimed_apply heffect happly h.code
  · intro next hnext
    rw [Session.code_read]
    refine Task.Aims.mono ?_ hle
    cases List.mem_append.1 hnext with
    | inl hnext => exact hmore next hnext
    | inr hnext => exact htasks.2 next hnext

end Pass

theorem Session.aimed_of_pass {cursor : Cursor} {maxSymbols maxCodeLength : Nat}
    {result : Except CompileError Unit} {t : Session}
    (h : (start cursor maxSymbols maxCodeLength).pass = (result, t)) : t.code.Aimed := by
  have hstart : (start cursor maxSymbols maxCodeLength).code.Aimed := by
    intro instruction hmem
    cases hmem
  obtain ⟨_, _, rfl⟩ | ⟨_, q, hrun, rfl⟩ := pass_cases h
  · exact hstart
  · refine (Pass.run_of_step Pass.Aimed Pass.Aimed.step hrun ⟨hstart, ?_⟩).code
    -- The first instruction leads to the next one.
    have hjump : (Instruction.jump (Instruction.wordAddress 1)).Aims (0 + 1) := by
      intro _
      exact ⟨1, Nat.le_refl _, rfl⟩
    simp only [Task.program, List.forall_mem_cons]
    exact ⟨hjump, trivial, trivial, trivial, trivial, by simp⟩

namespace Session

/--
The addresses are what they stand for: branches lead to instructions, the variables follow each
other from the start of the frame, and the frame ends behind them.
-/
structure Exact (s : Session) : Prop where
  branch : ∀ instruction ∈ s.code.instructions, instruction.op.isBranch = true →
    ∃ index ≤ s.code.size, instruction.modifier.toInt = 3 * (index : Int)
  address : ∀ (i : Nat) (symbol : Symbol), s.symbols.vars[i]? = some symbol →
    symbol.address.toInt = 3 + (i : Int)
  frame : ∀ instruction ∈ s.code.instructions, instruction.op = .inc →
    instruction.modifier.toInt = 3 + (s.symbols.vars.length : Int)

variable {tokens : List Token} {maxSymbols maxCodeLength : Nat}
  {result : Except CompileError Unit} {t : Session}

theorem exact_of_pass (hlength : tokens.length ≤ 715827880)
    (h : (start ⟨[], tokens⟩ maxSymbols maxCodeLength).pass = (result, t)) : t.Exact := by
  have hsize := size_code_le_of_pass h
  have hframed := framed_of_pass h
  have hvars : t.symbols.vars.length ≤ tokens.length := by
    have hvars : t.symbols.vars.length ≤ t.symbols.entries.length := List.length_filter_le _ _
    have hsymbols := two_mul_size_symbols_le_of_pass h
    have hposition := t.cursor.position_le_length
    have htokens : t.cursor.tokens = tokens := tokens_of_pass h
    rw [SymbolTable.length_entries] at hvars
    rw [htokens] at hposition
    omega
  constructor
  · intro instruction hmem hbranch
    obtain ⟨index, hindex, hmodifier⟩ := aimed_of_pass h instruction hmem hbranch
    refine ⟨index, hindex, ?_⟩
    rw [hmodifier]
    exact Instruction.toInt_wordAddress_of_le hlength (Nat.le_trans hindex hsize)
  · intro i symbol hsymbol
    have hi := (List.getElem?_eq_some_iff.1 hsymbol).1
    rw [hframed.slotted i symbol hsymbol]
    exact Symbol.toInt_slot (by omega)
  · intro instruction hmem hinc
    rw [hframed.frame instruction hmem hinc]
    exact Symbol.toInt_slot (by omega)

end Session

/--
The tokens bound the code and the symbols of a pass, whatever its result is: there is no more than
one instruction for each token that is read, and three more, the last of them only at the end. With
room for that no limit is exceeded, and no address is cut off unless there are hundreds of millions
of tokens.
-/
theorem output_bounded (tokens : List Token) :
    (∀ maxSymbols maxCodeLength result t,
      (Session.start ⟨[], tokens⟩ maxSymbols maxCodeLength).pass = (result, t) →
        (∀ error, result = .error error → t.code.size ≤ t.cursor.position + 2) ∧
          t.code.size ≤ t.cursor.position + 3 ∧
            t.code.size ≤ tokens.length + 2 ∧
              2 * t.symbols.size ≤ t.cursor.position ∧
                (tokens.length ≤ 715827880 → t.Exact)) ∧
      (tokens.length ≤ 715827880 → ∀ index ≤ tokens.length + 2,
        (Instruction.wordAddress index).toInt = 3 * (index : Int)) ∧
      ∀ limit,
        (∀ limits, tokens.length + 2 ≤ limits.maxCodeLength →
          (compile tokens limits).result ≠ .error (.codeOverflow limit)) ∧
        (∀ limits, tokens.length / 2 ≤ limits.maxSymbols →
          (compile tokens limits).result ≠ .error (.symbolTableFull limit)) ∧
        (compile tokens {}).result ≠ .error (.symbolTableFull limit) := by
  refine ⟨?_, ?_, ?_⟩
  · intro maxSymbols maxCodeLength result t h
    obtain ⟨hsize, herror⟩ := Session.size_code_le_position_of_pass h
    exact ⟨herror, hsize, Session.size_code_le_of_pass h, Session.two_mul_size_symbols_le_of_pass h,
      fun hlength => Session.exact_of_pass hlength h⟩
  · intro hlength index hindex
    exact Instruction.toInt_wordAddress_of_le hlength hindex
  · intro limit
    refine ⟨?_, ?_, ?_⟩
    · intro limits hcode
      exact compile_ne_codeOverflow hcode limit
    · intro limits hsymbols
      apply compile_ne_symbolTableFull
      omega
    · apply compile_ne_symbolTableFull
      simp only
      omega

/-- The text `var x; write x.` -/
def writeVariable : List Token :=
  [.plain .varSym, .ident "x", .plain .semicolon, .plain .writeSym, .ident "x", .plain .period]

theorem output_bounded_writeVariable :
    writeVariable.length = 6 ∧
      (∃ t, (Session.start ⟨[], writeVariable⟩ 3 8).pass = (.ok (), t) ∧
        t.code.size = 5 ∧ t.code.size ≤ t.cursor.position + 3 ∧ t.symbols.size = 1 ∧ t.Exact) ∧
      (compile writeVariable ⟨3, 8, 6⟩).result ≠ .error (.codeOverflow 8) ∧
        (compile writeVariable ⟨3, 8, 6⟩).result ≠ .error (.symbolTableFull 3) := by
  obtain ⟨hpass, _, hlimits⟩ := output_bounded writeVariable
  have hresult : (Session.start ⟨[], writeVariable⟩ 3 8).pass.1 = .ok () := by decide +kernel
  obtain ⟨_, hsize, _, _, hexact⟩ := hpass 3 8 _ _ (Prod.ext hresult rfl)
  refine ⟨rfl, ⟨_, Prod.ext hresult rfl, ?_, hsize, ?_, hexact (by decide)⟩, ?_, ?_⟩
  · decide +kernel
  · decide +kernel
  · exact (hlimits 8).1 _ (by decide)
  · exact (hlimits 3).2.1 _ (by decide)

end PL0
