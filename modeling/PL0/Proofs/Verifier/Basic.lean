import PL0.Proofs.Machine
import PL0.Target.Basic

/-!
This module contains a verifier for code and what it is good for. The verifier looks at the
instructions one by one: at their operands, at the targets of branches, and at the depth of the
stack, which has to be the same on all ways to an instruction. On code that passes, a machine never
leaves the code, and never takes from the stack what belongs to the frame.
-/

namespace PL0

namespace Instruction

def pops (instruction : Instruction) : Nat :=
  match instruction.op with
  | .opr => if instruction.modifier = Operation.even.code then 1 else 2
  | .sto | .jpc => 1
  | .sys => if instruction.modifier = SystemCall.write.code then 1 else 0
  | .lit | .lod | .cal | .inc | .jmp => 0

def pushes (instruction : Instruction) : Nat :=
  match instruction.op with
  | .lit | .lod | .opr => 1
  | .inc => Word.index instruction.modifier
  | .sys => if instruction.modifier = SystemCall.read.code then 1 else 0
  | .sto | .cal | .jmp | .jpc => 0

theorem pops_operate {operation : Operation} (h : operation ≠ .even) :
    (operate operation).pops = 2 := by
  cases operation with
  | even => exact absurd rfl h
  | _ => rfl

/-- From the instruction at index `i` the machine can go on to the one at index `j`: to the next
one, unless it jumps or halts, or to the target of a branch. -/
def Leads (instruction : Instruction) (i j : Nat) : Prop :=
  (j = i + 1 ∧ instruction.op ≠ .jmp ∧ instruction ≠ .system .halt) ∨
    (instruction.op.isBranch = true ∧ instruction.modifier.toInt = 3 * j)

theorem leads_next {op : Opcode} {level modifier : Word} (hjmp : op ≠ .jmp)
    (hsys : op ≠ .sys) (i : Nat) : Leads ⟨op, level, modifier⟩ i (i + 1) :=
  .inl ⟨rfl, hjmp, fun hhalt => hsys (congrArg Instruction.op hhalt)⟩

end Instruction

/-- There is just one variable at the address, and the address is within the frame. -/
def TargetProgram.HasVariable (p : TargetProgram) (frame : Nat) (address : Word) : Prop :=
  p.symbols.countP (fun symbol => symbol.kind = .var ∧ symbol.address = address) = 1 ∧
    3 ≤ address.toInt ∧ address.toInt < frame

structure Instruction.Operands (p : TargetProgram) (frame : Nat) (instruction : Instruction) :
    Prop where
  level : instruction.level = 0
  call : instruction.op ≠ .cal
  operation : instruction.op = .opr →
    1 ≤ instruction.modifier.toInt ∧ instruction.modifier.toInt ≤ 11
  system : instruction.op = .sys →
    1 ≤ instruction.modifier.toInt ∧ instruction.modifier.toInt ≤ 3
  address : instruction.op = .lod ∨ instruction.op = .sto →
    p.HasVariable frame instruction.modifier

/-- What is checked for an instruction at index `i`: a branch leads forward if it is conditional and
backward if not, save for the first one; the depths fit together on all ways from the instruction;
the instruction leaves the frame alone; and nothing but the frame is there when a branch is taken
and at the end. -/
structure Instruction.Passes (p : TargetProgram) (frame : Nat) (depth : Nat → Nat) (i : Nat)
    (instruction : Instruction) : Prop where
  operands : instruction.Operands p frame
  branch : instruction.op.isBranch = true →
    ∃ j < p.code.length, instruction.modifier.toInt = 3 * j ∧ (instruction.op = .jpc → i < j) ∧
      (instruction.op = .jmp → i ≠ 0 → j < i) ∧ (i ≠ 0 → depth j = frame)
  edge : ∀ j, instruction.Leads i j →
    j < p.code.length ∧ depth j + instruction.pops = depth i + instruction.pushes
  pop : 0 < instruction.pops → frame + instruction.pops ≤ depth i
  halt : instruction = .system .halt → depth i = frame

/--
The code passes with the given size of the frame and depths of the stack before the instructions.
-/
structure TargetProgram.Verified (p : TargetProgram) (frame : Nat) (depth : Nat → Nat) : Prop where
  reserve : ∃ size : Word, p.code[1]? = some (.reserve size) ∧ size.toInt = frame
  start : depth 2 = frame
  halt : ∀ i, p.code[i]? = some (.system .halt) ↔ i + 1 = p.code.length
  passes : ∀ (i : Nat) (instruction : Instruction), p.code[i]? = some instruction →
    instruction.Passes p frame depth i

namespace Machine

variable {a : Arithmetic} {m t : Machine}

theorem pop_effect {x : Word} (h : m.pop = some (x, t)) : t.pc = m.pc ∧ t.sp + 1 = m.sp := by
  unfold pop at h
  split at h
  · cases h
  · next sp hsp =>
    cases h
    exact ⟨rfl, hsp.symm⟩

theorem operate_effect {operation : Operation} (h : m.operate a operation = some t) :
    t.pc = m.pc ∧ t.sp + (Instruction.operate operation).pops = m.sp + 1 := by
  unfold operate at h
  split at h
  · obtain ⟨⟨x, u⟩, hpop, h⟩ := Option.bind_eq_some_iff.1 h
    obtain ⟨hpc, hsp⟩ := pop_effect hpop
    obtain ⟨z, _, rfl⟩ := Option.map_eq_some_iff.1 h
    exact ⟨hpc, congrArg (· + 1) hsp⟩
  · next hoperation =>
    obtain ⟨⟨y, u⟩, hpop, h⟩ := Option.bind_eq_some_iff.1 h
    obtain ⟨⟨x, v⟩, hpop', h⟩ := Option.bind_eq_some_iff.1 h
    obtain ⟨hpc, hsp⟩ := pop_effect hpop
    obtain ⟨hpc', hsp'⟩ := pop_effect hpop'
    obtain ⟨z, _, rfl⟩ := Option.map_eq_some_iff.1 h
    rw [Instruction.pops_operate hoperation]
    refine ⟨hpc'.trans hpc, ?_⟩
    dsimp only [push] at hsp hsp' ⊢
    omega

theorem answer_effect {call : SystemCall} (h : m.answer call = some t) :
    t.pc = m.pc ∧ call ≠ .halt ∧
      t.sp + (Instruction.system call).pops = m.sp + (Instruction.system call).pushes := by
  cases call with
  | write =>
    obtain ⟨⟨x, u⟩, hpop, rfl⟩ := Option.map_eq_some_iff.1 h
    obtain ⟨hpc, hsp⟩ := pop_effect hpop
    exact ⟨hpc, by decide, hsp⟩
  | read =>
    simp only [answer] at h
    split at h
    · cases h
    · cases h
      exact ⟨rfl, by decide, rfl⟩
  | halt => cases h

theorem step_effect {code : List Instruction} {i : Nat} {instruction : Instruction}
    (hpc : m.pc = 3 * i) (hcode : code[i]? = some instruction) (hlevel : instruction.level = 0)
    (hbranch : instruction.op.isBranch = true → ∃ j : Nat, instruction.modifier.toInt = 3 * j)
    (h : m.step a code = some t) :
    ∃ j, instruction.Leads i j ∧ t.pc = 3 * j ∧
      t.sp + instruction.pops = m.sp + instruction.pushes := by
  obtain ⟨op, level, modifier⟩ := instruction
  cases hlevel
  rw [step_eq hpc hcode] at h
  cases op with
  | lit | lod | inc =>
    cases h
    exact ⟨i + 1, Instruction.leads_next (by decide) (by decide) i, rfl, rfl⟩
  | opr =>
    obtain ⟨operation, hoperation, hoperate⟩ := Option.bind_eq_some_iff.1 h
    cases Operation.code_eq_of_ofCode? hoperation
    obtain ⟨hnext, hsp⟩ := operate_effect hoperate
    exact ⟨i + 1, Instruction.leads_next (by decide) (by decide) i, hnext, hsp⟩
  | sto =>
    obtain ⟨⟨x, u⟩, hpop, rfl⟩ := Option.map_eq_some_iff.1 h
    obtain ⟨hnext, hsp⟩ := pop_effect hpop
    exact ⟨i + 1, Instruction.leads_next (by decide) (by decide) i, hnext, hsp⟩
  | cal => cases h
  | jmp =>
    cases h
    obtain ⟨j, hj⟩ := hbranch rfl
    exact ⟨j, .inr ⟨rfl, hj⟩, Word.index_eq hj, rfl⟩
  | jpc =>
    obtain ⟨⟨x, u⟩, hpop, rfl⟩ := Option.map_eq_some_iff.1 h
    obtain ⟨hnext, hsp⟩ := pop_effect hpop
    obtain ⟨j, hj⟩ := hbranch rfl
    dsimp only
    split
    · exact ⟨j, .inr ⟨rfl, hj⟩, Word.index_eq hj, hsp⟩
    · exact ⟨i + 1, Instruction.leads_next (by decide) (by decide) i, hnext, hsp⟩
  | sys =>
    obtain ⟨call, hcall, hanswer⟩ := Option.bind_eq_some_iff.1 h
    cases SystemCall.code_eq_of_ofCode? hcall
    -- The machine does not answer the call to halt, so it goes on to the next instruction.
    obtain ⟨hnext, hne, hsp⟩ := answer_effect hanswer
    have hhalt : Instruction.system call ≠ .system .halt := by
      cases call with
      | halt => exact absurd rfl hne
      | _ => decide
    exact ⟨i + 1, .inl ⟨rfl, by simp, hhalt⟩, hnext, hsp⟩

end Machine

namespace TargetProgram.Verified

variable {p : TargetProgram} {frame : Nat} {depth : Nat → Nat} {a : Arithmetic} {m t : Machine}

theorem step (h : p.Verified frame depth) {i : Nat} (hi : i < p.code.length) (hpc : m.pc = 3 * i)
    (hsp : m.sp = depth i) (hstep : m.step a p.code = some t) :
    ∃ j < p.code.length, t.pc = 3 * j ∧ t.sp = depth j := by
  have hcode := List.getElem?_eq_getElem hi
  have hpasses := h.passes i _ hcode
  obtain ⟨j, hleads, hpc', hsp'⟩ := Machine.step_effect hpc hcode hpasses.operands.level
    (fun hbranch => (hpasses.branch hbranch).imp fun _ hj => hj.2.1) hstep
  obtain ⟨hj, hdepth⟩ := hpasses.edge j hleads
  exact ⟨j, hj, hpc', by omega⟩

theorem reaches (h : p.Verified frame depth) {i : Nat} (hi : i < p.code.length)
    (hpc : m.pc = 3 * i) (hsp : m.sp = depth i) (hreaches : m.Reaches a p.code t) :
    ∃ j < p.code.length, t.pc = 3 * j ∧ t.sp = depth j := by
  obtain ⟨n, hrun⟩ := hreaches
  induction n generalizing m i with
  | zero =>
    cases hrun
    exact ⟨i, hi, hpc, hsp⟩
  | succ n ih =>
    obtain ⟨u, hstep, hrun⟩ := Option.bind_eq_some_iff.1 hrun
    obtain ⟨j, hj, hpc', hsp'⟩ := h.step hi hpc hsp hstep
    exact ih hj hpc' hsp' hrun

/-- A machine that has made room for the frame always has an instruction to go on with, and what the
instruction takes from the stack lies above the frame. -/
theorem exists_instruction (h : p.Verified frame depth) (hlength : 2 < p.code.length)
    (hpc : m.pc = 6) (hsp : m.sp = frame) (hreaches : m.Reaches a p.code t) :
    ∃ i instruction, t.pc = 3 * i ∧ p.code[i]? = some instruction ∧
      (0 < instruction.pops → frame + instruction.pops ≤ t.sp) := by
  obtain ⟨i, hi, hpc', hsp'⟩ := h.reaches hlength hpc (hsp.trans h.start.symm) hreaches
  have hcode := List.getElem?_eq_getElem hi
  refine ⟨i, _, hpc', hcode, ?_⟩
  rw [hsp']
  exact (h.passes i _ hcode).pop

end TargetProgram.Verified
end PL0
