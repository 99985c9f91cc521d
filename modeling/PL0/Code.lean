import PL0.Error
import PL0.Instruction

/-!
The code buffer. Instructions are appended until the capacity is reached. The target of a branch can
be set afterwards, once for each branch; nothing else of an emitted instruction changes.
-/

namespace PL0

/-- An emitted instruction, and whether its target has been set afterwards. -/
structure Cell where
  instruction : Instruction
  patched : Bool
  deriving DecidableEq, Repr

structure Code where
  capacity : Nat
  cells : Array Cell
  deriving DecidableEq, Repr

namespace Code

def empty (capacity : Nat) : Code := ⟨capacity, #[]⟩

def size (code : Code) : Nat :=
  code.cells.size

def instructions (code : Code) : List Instruction :=
  code.cells.toList.map (·.instruction)

/-- The word address of the instruction that is emitted next. -/
def nextAddress (code : Code) : Word :=
  Instruction.wordAddress code.size

/-- Appends an instruction and gives its index. -/
def emit (code : Code) (instruction : Instruction) : Except CompileError (Nat × Code) :=
  if code.size < code.capacity then
    .ok (code.size, { code with cells := code.cells.push ⟨instruction, false⟩ })
  else
    .error (.codeOverflow code.capacity)

/-- Sets the target of the branch with the given index, and gives the branch as it is then. -/
def patch (code : Code) (index : Nat) (target : Word) :
    Except CompileError (Instruction × Code) :=
  match code.cells[index]? with
  | none => .error (.invalidPatch index .outside)
  | some cell =>
    if ! cell.instruction.op.isBranch then .error (.invalidPatch index .notBranch)
    else if cell.patched then .error (.invalidPatch index .alreadyPatched)
    else
      let branch := { cell.instruction with modifier := target }
      .ok (branch, { code with cells := code.cells.setIfInBounds index ⟨branch, true⟩ })

@[simp]
theorem length_instructions (code : Code) : code.instructions.length = code.size := by
  simp [instructions, size]

theorem emit_eq_ok_iff {code after : Code} {instruction : Instruction} {index : Nat} :
    code.emit instruction = .ok (index, after) ↔
      code.size < code.capacity ∧ index = code.size ∧
        after = { code with cells := code.cells.push ⟨instruction, false⟩ } := by
  unfold emit
  split
  · simp_all [eq_comm]
  · simp_all only [reduceCtorEq, false_and]

theorem instructions_emit {code after : Code} {instruction : Instruction} {index : Nat}
    (h : code.emit instruction = .ok (index, after)) :
    after.instructions = code.instructions ++ [instruction] := by
  obtain ⟨_, _, rfl⟩ := emit_eq_ok_iff.1 h
  simp [instructions]

theorem size_emit {code after : Code} {instruction : Instruction} {index : Nat}
    (h : code.emit instruction = .ok (index, after)) : after.size = code.size + 1 := by
  rw [← length_instructions, instructions_emit h]
  simp

theorem patch_eq_ok_iff {code after : Code} {index : Nat} {target : Word} {branch : Instruction} :
    code.patch index target = .ok (branch, after) ↔
      ∃ cell, code.cells[index]? = some cell ∧ cell.instruction.op.isBranch = true ∧
        cell.patched = false ∧ branch = { cell.instruction with modifier := target } ∧
        after = { code with cells := code.cells.setIfInBounds index ⟨branch, true⟩ } := by
  unfold patch
  split
  · simp_all
  · split
    · simp_all
    · split
      · simp_all
      · simp_all only [Except.ok.injEq, Prod.mk.injEq, Option.some.injEq, exists_eq_left']
        constructor
        · rintro ⟨rfl, rfl⟩
          simp_all
        · rintro ⟨_, _, rfl, rfl⟩
          exact ⟨rfl, rfl⟩

theorem size_patch {code after : Code} {index : Nat} {target : Word} {branch : Instruction}
    (h : code.patch index target = .ok (branch, after)) : after.size = code.size := by
  obtain ⟨_, _, _, _, _, rfl⟩ := patch_eq_ok_iff.1 h
  simp [size]

end Code
end PL0
