import PL0.Instruction
import Mathlib.Logic.Function.Basic

/-!
This module contains the PM/0 machine, which runs code. Its stack has no bound and is zero at the
start. The next instruction is given by its word address. What the operations compute is left open:
they are partial functions, and the machine does not get past an operation without a result, nor
past an instruction that takes more from the stack than there is or reads behind the end of the
input.
-/

namespace PL0

/-- What the operations compute, as far as they have a result. -/
structure Arithmetic where
  binary : Operation → Word → Word → Option Word
  even : Word → Option Word

def Operation.ofCode? (code : Word) : Option Operation :=
  all.find? (·.code == code)

theorem Operation.ofCode?_code (operation : Operation) :
    ofCode? operation.code = some operation := by
  cases operation <;> rfl

theorem Operation.code_eq_of_ofCode? {code : Word} {operation : Operation}
    (h : ofCode? code = some operation) : operation.code = code := by
  have := List.find?_some h
  simpa using this

def SystemCall.ofCode? (code : Word) : Option SystemCall :=
  all.find? (·.code == code)

theorem SystemCall.ofCode?_code (call : SystemCall) : ofCode? call.code = some call := by
  cases call <;> rfl

theorem SystemCall.code_eq_of_ofCode? {code : Word} {call : SystemCall}
    (h : ofCode? code = some call) : call.code = code := by
  have := List.find?_some h
  simpa using this

/-- The word as an unsigned number of 64 bits. -/
def Word.index (word : Word) : Nat :=
  (word.toInt % 18446744073709551616).toNat

theorem Word.index_eq {word : Word} {n : Nat} (h : word.toInt = n) : Word.index word = n := by
  have hlt := word.toInt_lt
  rw [index, h]
  omega

theorem Word.index_ofNat {n : Nat} (h : n < 2147483648) : Word.index (Int32.ofNat n) = n :=
  index_eq (Int32.toInt_ofNat_of_lt h)

structure Machine where
  /-- The word address of the next instruction. -/
  pc : Nat
  /-- The number of words on the stack. -/
  sp : Nat
  stack : Nat → Word
  input : List Word
  output : List Word

namespace Machine

def start (input : List Word) : Machine :=
  ⟨0, 0, fun _ => 0, input, []⟩

def push (m : Machine) (value : Word) : Machine :=
  { m with sp := m.sp + 1, stack := Function.update m.stack m.sp value }

def pop (m : Machine) : Option (Word × Machine) :=
  match m.sp with
  | 0 => none
  | sp + 1 => some (m.stack sp, { m with sp := sp })

def operate (a : Arithmetic) (m : Machine) : Operation → Option Machine
  | .even => m.pop.bind fun (operand, m) => (a.even operand).map m.push
  | operation =>
    m.pop.bind fun (right, m) =>
      m.pop.bind fun (left, m) => (a.binary operation left right).map m.push

/-- What the machine does for a call; it does nothing more when it is asked to halt. -/
def answer (m : Machine) : SystemCall → Option Machine
  | .write => m.pop.map fun (value, m) => { m with output := m.output ++ [value] }
  | .read =>
    match m.input with
    | [] => none
    | value :: rest => some { m.push value with input := rest }
  | .halt => none

/-- What an instruction does when the address of the next one is already there. -/
def execute (a : Arithmetic) (m : Machine) (op : Opcode) (modifier : Word) : Option Machine :=
  match op with
  | .lit => some (m.push modifier)
  | .opr => (Operation.ofCode? modifier).bind (m.operate a)
  | .lod => some (m.push (m.stack (Word.index modifier)))
  | .sto =>
    m.pop.map fun (value, m) =>
      { m with stack := Function.update m.stack (Word.index modifier) value }
  | .cal => none
  | .inc => some { m with sp := m.sp + Word.index modifier }
  | .jmp => some { m with pc := Word.index modifier }
  | .jpc =>
    m.pop.map fun (value, m) => { m with pc := if value = 0 then Word.index modifier else m.pc }
  | .sys => (SystemCall.ofCode? modifier).bind m.answer

/-- One step. The machine knows one level only. -/
def step (a : Arithmetic) (code : List Instruction) (m : Machine) : Option Machine :=
  match code[m.pc / Instruction.width]? with
  | none => none
  | some instruction =>
    if instruction.level = 0 then
      { m with pc := m.pc + Instruction.width }.execute a instruction.op instruction.modifier
    else none

def run (a : Arithmetic) (code : List Instruction) : Nat → Machine → Option Machine
  | 0, m => some m
  | n + 1, m => (m.step a code).bind (run a code n)

def AtHalt (code : List Instruction) (m : Machine) : Prop :=
  code[m.pc / Instruction.width]? = some (.system .halt)

/-- After so many steps the machine is asked to halt, and has written the given output. -/
def HaltsIn (a : Arithmetic) (code : List Instruction) (n : Nat) (m : Machine)
    (output : List Word) : Prop :=
  ∃ t, m.run a code n = some t ∧ t.AtHalt code ∧ t.output = output

def Halts (a : Arithmetic) (code : List Instruction) (m : Machine) (output : List Word) : Prop :=
  ∃ n, m.HaltsIn a code n output

def Reaches (a : Arithmetic) (code : List Instruction) (m t : Machine) : Prop :=
  ∃ n, m.run a code n = some t

/-- The machine gets there in at least one step. -/
def Advances (a : Arithmetic) (code : List Instruction) (m t : Machine) : Prop :=
  ∃ u, m.Reaches a code u ∧ u.step a code = some t

/-- The machine gets to an instruction that it does not get past. -/
def Stuck (a : Arithmetic) (code : List Instruction) (m : Machine) : Prop :=
  ∃ t, m.Reaches a code t ∧ t.step a code = none ∧ ¬ t.AtHalt code

section Run

variable {a : Arithmetic} {code : List Instruction} {m u t : Machine} {output : List Word} {n : Nat}

theorem run_add (j k : Nat) (m : Machine) :
    m.run a code (j + k) = (m.run a code j).bind (run a code k) := by
  induction j generalizing m with
  | zero => simp [run]
  | succ j ih =>
    rw [Nat.add_right_comm, run, run, Option.bind_assoc]
    congr
    funext t
    apply ih

theorem Reaches.refl (m : Machine) : m.Reaches a code m := ⟨0, rfl⟩

theorem Reaches.of_step (h : m.step a code = some t) : m.Reaches a code t := by
  refine ⟨1, ?_⟩
  rw [run, h]
  rfl

theorem Reaches.trans (h : m.Reaches a code u) (h' : u.Reaches a code t) : m.Reaches a code t := by
  obtain ⟨j, hj⟩ := h
  obtain ⟨k, hk⟩ := h'
  refine ⟨j + k, ?_⟩
  rw [run_add, hj]
  exact hk

theorem Advances.reaches (h : m.Advances a code t) : m.Reaches a code t := by
  obtain ⟨u, hreaches, hstep⟩ := h
  exact hreaches.trans (.of_step hstep)

theorem Reaches.stuck (h : m.Reaches a code u) (h' : u.Stuck a code) : m.Stuck a code := by
  obtain ⟨t, ht, hstep, hhalt⟩ := h'
  exact ⟨t, h.trans ht, hstep, hhalt⟩

theorem Reaches.halts (h : m.Reaches a code u) (h' : u.Halts a code output) :
    m.Halts a code output := by
  obtain ⟨j, hj⟩ := h
  obtain ⟨k, t, hk, ht⟩ := h'
  refine ⟨j + k, t, ?_, ht⟩
  rw [run_add, hj]
  exact hk

theorem step_eq_none_of_atHalt (h : m.AtHalt code) : m.step a code = none := by
  rw [step, h]
  rfl

theorem HaltsIn.of_step (h : m.HaltsIn a code n output) (hstep : m.step a code = some t) :
    ∃ k < n, t.HaltsIn a code k output := by
  obtain ⟨u, hrun, hu⟩ := h
  cases n with
  | zero =>
    cases hrun
    rw [step_eq_none_of_atHalt hu.1] at hstep
    cases hstep
  | succ n =>
    rw [run, hstep] at hrun
    exact ⟨n, Nat.lt_succ_self n, u, hrun, hu⟩

theorem HaltsIn.of_reaches (h : m.HaltsIn a code n output) (hreaches : m.Reaches a code t) :
    ∃ k ≤ n, t.HaltsIn a code k output := by
  obtain ⟨j, hj⟩ := hreaches
  induction j generalizing m n with
  | zero =>
    cases hj
    exact ⟨n, Nat.le_refl n, h⟩
  | succ j ih =>
    obtain ⟨u, hstep, hrun⟩ := Option.bind_eq_some_iff.1 hj
    obtain ⟨k, hk, hu⟩ := h.of_step hstep
    obtain ⟨l, hl, ht⟩ := ih hu hrun
    exact ⟨l, by omega, ht⟩

theorem HaltsIn.of_advances (h : m.HaltsIn a code n output) (hadvances : m.Advances a code t) :
    ∃ k < n, t.HaltsIn a code k output := by
  obtain ⟨u, hreaches, hstep⟩ := hadvances
  obtain ⟨k, hk, hu⟩ := h.of_reaches hreaches
  obtain ⟨l, hl, ht⟩ := hu.of_step hstep
  exact ⟨l, by omega, ht⟩

theorem HaltsIn.output_eq (h : m.HaltsIn a code n output) (hhalt : m.AtHalt code) :
    m.output = output := by
  obtain ⟨t, hrun, _, houtput⟩ := h
  cases n with
  | zero =>
    cases hrun
    exact houtput
  | succ n =>
    rw [run, step_eq_none_of_atHalt hhalt] at hrun
    cases hrun

theorem HaltsIn.not_stuck (h : m.HaltsIn a code n output) : ¬ m.Stuck a code := by
  rintro ⟨t, hreaches, hstep, hhalt⟩
  obtain ⟨k, _, u, hrun, hu⟩ := h.of_reaches hreaches
  cases k with
  | zero =>
    cases hrun
    exact hhalt hu.1
  | succ k =>
    rw [run, hstep] at hrun
    cases hrun

end Run

section Step

variable {a : Arithmetic} {code : List Instruction} {m : Machine} {i n : Nat}

theorem index_eq (hpc : m.pc = 3 * i) : m.pc / Instruction.width = i := by
  rw [hpc, Instruction.width]
  omega

theorem atHalt_iff (hpc : m.pc = 3 * i) : m.AtHalt code ↔ code[i]? = some (.system .halt) := by
  rw [AtHalt, index_eq hpc]

theorem step_eq {op : Opcode} {modifier : Word} (hpc : m.pc = 3 * i)
    (h : code[i]? = some ⟨op, 0, modifier⟩) :
    m.step a code = { m with pc := 3 * (i + 1) }.execute a op modifier := by
  have hnext : m.pc + Instruction.width = 3 * (i + 1) := by
    rw [hpc, Instruction.width]
    omega
  rw [step, index_eq hpc, h, hnext]
  rfl

theorem step_literal {x : Word} (hpc : m.pc = 3 * i) (h : code[i]? = some (.literal x)) :
    m.step a code = some { m with
      pc := 3 * (i + 1)
      sp := m.sp + 1
      stack := Function.update m.stack m.sp x } := by
  rw [step_eq hpc h]
  rfl

theorem step_load {location : Location} (hlevels : location.levels = 0) (hpc : m.pc = 3 * i)
    (h : code[i]? = some (.load location)) :
    m.step a code = some { m with
      pc := 3 * (i + 1)
      sp := m.sp + 1
      stack := Function.update m.stack m.sp (m.stack (Word.index location.address)) } := by
  rw [Instruction.load, hlevels] at h
  rw [step_eq hpc h]
  rfl

theorem step_even (hpc : m.pc = 3 * i) (h : code[i]? = some (.operate .even))
    (hsp : m.sp = n + 1) :
    m.step a code = (a.even (m.stack n)).map fun z =>
      { m with pc := 3 * (i + 1), sp := n + 1, stack := Function.update m.stack n z } := by
  rw [step_eq hpc h, execute, Operation.ofCode?_code]
  simp only [Option.bind_some, operate, pop, hsp]
  rfl

theorem step_operate {operation : Operation} (hoperation : operation ≠ .even)
    (hpc : m.pc = 3 * i) (h : code[i]? = some (.operate operation)) (hsp : m.sp = n + 2) :
    m.step a code = (a.binary operation (m.stack n) (m.stack (n + 1))).map fun z =>
      { m with pc := 3 * (i + 1), sp := n + 1, stack := Function.update m.stack n z } := by
  rw [step_eq hpc h, execute, Operation.ofCode?_code]
  simp only [Option.bind_some, operate, pop, hsp]
  rfl

theorem step_store {location : Location} (hlevels : location.levels = 0) (hpc : m.pc = 3 * i)
    (h : code[i]? = some (.store location)) (hsp : m.sp = n + 1) :
    m.step a code = some { m with
      pc := 3 * (i + 1)
      sp := n
      stack := Function.update m.stack (Word.index location.address) (m.stack n) } := by
  rw [Instruction.store, hlevels] at h
  rw [step_eq hpc h, execute]
  simp only [pop, hsp]
  rfl

theorem step_reserve {size : Word} (hpc : m.pc = 3 * i) (h : code[i]? = some (.reserve size)) :
    m.step a code = some { m with pc := 3 * (i + 1), sp := m.sp + Word.index size } := by
  rw [step_eq hpc h]
  rfl

theorem step_jump {target : Word} (hpc : m.pc = 3 * i) (h : code[i]? = some (.jump target)) :
    m.step a code = some { m with pc := Word.index target } := by
  rw [step_eq hpc h]
  rfl

theorem step_branch {target : Word} (hpc : m.pc = 3 * i) (h : code[i]? = some ⟨.jpc, 0, target⟩)
    (hsp : m.sp = n + 1) :
    m.step a code = some { m with
      pc := if m.stack n = 0 then Word.index target else 3 * (i + 1)
      sp := n } := by
  rw [step_eq hpc h, execute]
  simp only [pop, hsp]
  rfl

theorem step_write (hpc : m.pc = 3 * i) (h : code[i]? = some (.system .write))
    (hsp : m.sp = n + 1) :
    m.step a code = some { m with
      pc := 3 * (i + 1)
      sp := n
      output := m.output ++ [m.stack n] } := by
  rw [step_eq hpc h, execute, SystemCall.ofCode?_code]
  simp only [Option.bind_some, answer, pop, hsp]
  rfl

theorem step_read {x : Word} {rest : List Word} (hpc : m.pc = 3 * i)
    (h : code[i]? = some (.system .read)) (hinput : m.input = x :: rest) :
    m.step a code = some { m with
      pc := 3 * (i + 1)
      sp := m.sp + 1
      stack := Function.update m.stack m.sp x
      input := rest } := by
  rw [step_eq hpc h, execute, SystemCall.ofCode?_code]
  simp only [Option.bind_some, answer, hinput]
  rfl

theorem step_read_nil (hpc : m.pc = 3 * i) (h : code[i]? = some (.system .read))
    (hinput : m.input = []) : m.step a code = none := by
  rw [step_eq hpc h, execute, SystemCall.ofCode?_code]
  simp only [Option.bind_some, answer, hinput]

end Step

end Machine
end PL0
