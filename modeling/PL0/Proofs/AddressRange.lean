import PL0.Proofs.Buffers
import PL0.Proofs.CodeSize

/-!
This module contains how far the addresses of a code buffer reach. The next address is a word, but
the capacity does not keep the code so short that three times its length fits one. Up to 715827882
instructions the addresses are exact. The next one is negative, and after 4294967296 instructions
they are repeated from zero on.
-/

namespace PL0
namespace Code

/-- What can be called on a buffer. -/
inductive Call where
  | emit (instruction : Instruction)
  | patch (index : Nat) (target : Word)

/-- The buffer after a call. It stays as it is if the call is refused. -/
def call (code : Code) : Call → Code
  | .emit instruction =>
    match code.emit instruction with
    | .ok (_, after) => after
    | .error _ => code
  | .patch index target =>
    match code.patch index target with
    | .ok (_, after) => after
    | .error _ => code

def run (code : Code) (calls : List Call) : Code :=
  calls.foldl call code

def Reaches (code after : Code) : Prop :=
  ∃ calls, code.run calls = after

inductive Called (code : Code) : Code → Prop where
  | emitted {after : Code} {instruction : Instruction} {index : Nat}
      (h : code.emit instruction = .ok (index, after)) : Called code after
  | patched {after : Code} {branch : Instruction} {index : Nat} {target : Word}
      (h : code.patch index target = .ok (branch, after)) : Called code after
  | refused : Called code code

variable {code after final : Code} {instruction branch : Instruction} {index next capacity : Nat}

theorem called_call (code : Code) (c : Call) : code.Called (code.call c) := by
  cases c with
  | emit instruction =>
    simp only [call]
    split
    · next hemit => exact .emitted hemit
    · exact .refused
  | patch index target =>
    simp only [call]
    split
    · next hpatch => exact .patched hpatch
    · exact .refused

theorem call_emit (h : code.emit instruction = .ok (index, after)) :
    code.call (.emit instruction) = after := by
  simp only [call, h]

@[simp]
theorem run_cons (code : Code) (c : Call) (calls : List Call) :
    code.run (c :: calls) = (code.call c).run calls := rfl

theorem Reaches.of_called (Keeps : Code → Prop)
    (hcalled : ∀ {code after : Code}, code.Called after → Keeps code → Keeps after)
    (h : code.Reaches after) (hcode : Keeps code) : Keeps after := by
  obtain ⟨calls, rfl⟩ := h
  induction calls generalizing code with
  | nil => exact hcode
  | cons c calls ih =>
    rw [run_cons]
    apply ih
    exact hcalled (code.called_call c) hcode

theorem Reaches.refl (code : Code) : code.Reaches code :=
  ⟨[], rfl⟩

theorem Reaches.trans (h : code.Reaches after) (hfinal : after.Reaches final) :
    code.Reaches final := by
  obtain ⟨calls, rfl⟩ := h
  obtain ⟨more, rfl⟩ := hfinal
  exact ⟨calls ++ more, List.foldl_append⟩

theorem reaches_of_emit (h : code.emit instruction = .ok (index, after)) : code.Reaches after :=
  ⟨[.emit instruction], call_emit h⟩

theorem Called.size_le (h : code.Called after)
    (hcode : code.capacity = capacity ∧ code.size ≤ capacity) :
    after.capacity = capacity ∧ after.size ≤ capacity := by
  cases h with
  | emitted hemit =>
    obtain ⟨hroom, _, hafter⟩ := emit_eq_ok_iff.1 hemit
    rw [size_emit hemit, hafter]
    exact ⟨hcode.1, hcode.1 ▸ hroom⟩
  | patched hpatch =>
    obtain ⟨_, _, _, _, _, hafter⟩ := patch_eq_ok_iff.1 hpatch
    rw [size_patch hpatch, hafter]
    exact hcode
  | refused => exact hcode

theorem Reaches.size_le (h : (empty capacity).Reaches code) : code.size ≤ capacity :=
  (h.of_called (fun code => code.capacity = capacity ∧ code.size ≤ capacity) Called.size_le
    ⟨rfl, Nat.zero_le _⟩).2

theorem Called.steps (h : code.Called after) (index : Nat) :
    ∃ target?, Cell.Steps code.cells[index]? target? after.cells[index]? := by
  cases h with
  | emitted hemit => exact ⟨_, steps_emit hemit index⟩
  | patched hpatch => exact ⟨_, steps_patch hpatch index⟩
  | refused => exact ⟨_, .same _⟩

theorem Reaches.exists_becomes {cell : Cell} (h : code.Reaches after)
    (hcell : code.cells[index]? = some cell) :
    ∃ targets last, after.cells[index]? = some last ∧ cell.Becomes targets last := by
  refine h.of_called
    (fun code => ∃ targets last, code.cells[index]? = some last ∧ cell.Becomes targets last) ?_
    ⟨[], cell, hcell, .same⟩
  rintro code after hcalled ⟨targets, last, hlast, hbecomes⟩
  obtain ⟨target?, hsteps⟩ := hcalled.steps index
  rw [hlast] at hsteps
  obtain ⟨last, hlast, hbecomes⟩ := hbecomes.steps hsteps
  exact ⟨_, last, hlast, hbecomes⟩

theorem Reaches.getElem?_eq_of_patched {cell : Cell} (h : code.Reaches after)
    (hcell : code.cells[index]? = some cell) (hpatched : cell.patched = true) :
    after.cells[index]? = some cell := by
  obtain ⟨targets, last, hlast, hbecomes⟩ := h.exists_becomes hcell
  cases hbecomes with
  | same => exact hlast
  | patched _ _ hopen =>
    rw [hpatched] at hopen
    cases hopen

/--
The branch at `index` is patched to the address behind the code, and `instruction` is emitted next.
Until then other branches may be patched.
-/
inductive Lands (code : Code) (index : Nat) (branch instruction : Instruction) (next : Nat)
    (after : Code) : Prop where
  | intro {patched later : Code}
      (hpatch : code.patch index code.nextAddress = .ok (branch, patched))
      (hlater : patched.Reaches later) (hsize : later.size = patched.size)
      (hemit : later.emit instruction = .ok (next, after))

namespace Lands

theorem next_eq (h : code.Lands index branch instruction next after) : next = code.size := by
  obtain ⟨hpatch, _, hsize, hemit⟩ := h
  obtain ⟨_, hnext, _⟩ := emit_eq_ok_iff.1 hemit
  rw [hnext, hsize, size_patch hpatch]

theorem modifier_eq (h : code.Lands index branch instruction next after) :
    branch.modifier = code.nextAddress := by
  obtain ⟨hpatch, _, _, _⟩ := h
  obtain ⟨_, _, _, _, rfl, _⟩ := patch_eq_ok_iff.1 hpatch
  rfl

theorem toInt_modifier_eq_iff (h : code.Lands index branch instruction next after) :
    branch.modifier.toInt = 3 * (next : Int) ↔ code.size ≤ 715827882 := by
  rw [h.modifier_eq, h.next_eq]
  exact Instruction.toInt_wordAddress_eq_iff

theorem getElem?_of_reaches (h : code.Lands index branch instruction next after)
    (hfinal : after.Reaches final) :
    final.cells[index]? = some ⟨branch, true⟩ ∧
      ∃ targets cell, final.cells[next]? = some cell ∧
        Cell.Becomes ⟨instruction, false⟩ targets cell := by
  obtain ⟨hpatch, hlater, _, hemit⟩ := h
  constructor
  -- The flag of the branch is set, so that no later patch of it succeeds.
  · apply ((hlater.trans (reaches_of_emit hemit)).trans hfinal).getElem?_eq_of_patched
    · obtain ⟨cell, hcell, _, _, _, rfl⟩ := patch_eq_ok_iff.1 hpatch
      exact Array.getElem?_setIfInBounds_self_of_lt (Array.getElem?_eq_some_iff.1 hcell).1
    · rfl
  · apply hfinal.exists_becomes
    obtain ⟨_, rfl, rfl⟩ := emit_eq_ok_iff.1 hemit
    exact Array.getElem?_push_size

end Lands

theorem run_replicate_emit (instruction : Instruction) {n : Nat}
    (hroom : code.size + n ≤ code.capacity) :
    code.run (List.replicate n (.emit instruction)) =
      ⟨code.capacity, code.cells ++ Array.replicate n ⟨instruction, false⟩⟩ := by
  induction n generalizing code with
  | zero => simp [run]
  | succ n ih =>
    have hemit : code.emit instruction = .ok _ := emit_eq_ok_iff.2 ⟨by omega, rfl, rfl⟩
    rw [List.replicate_succ, run_cons, call_emit hemit, ih]
    · apply congrArg (Code.mk code.capacity)
      rw [Array.push_eq_append, Array.append_assoc, Array.replicate_succ']
    · rw [size_emit hemit]
      simp only
      omega

/-- A branch without a target, and `n` literals behind it. -/
def fill (n : Nat) : List Call :=
  .emit .hole :: List.replicate n (.emit (.literal 0))

theorem run_fill {n : Nat} (h : n + 1 ≤ capacity) :
    (empty capacity).run (fill n) =
      ⟨capacity, #[⟨.hole, false⟩] ++ Array.replicate n ⟨.literal 0, false⟩⟩ := by
  have hemit : (empty capacity).emit .hole = .ok _ :=
    emit_eq_ok_iff.2 ⟨Nat.lt_of_lt_of_le (Nat.succ_pos n) h, rfl, rfl⟩
  rw [fill, run_cons, call_emit hemit, run_replicate_emit]
  · rfl
  · rw [size_emit hemit]
    simp only [empty, size, Array.size_empty]
    omega

theorem size_run_fill {n : Nat} (h : n + 1 ≤ capacity) :
    ((empty capacity).run (fill n)).size = n + 1 := by
  rw [run_fill h, size, Array.size_append, Array.size_replicate]
  exact Nat.add_comm 1 n

theorem exists_lands_fill {n : Nat} (h : n + 2 ≤ capacity) (instruction : Instruction) :
    ∃ branch after, ((empty capacity).run (fill n)).Lands 0 branch instruction (n + 1) after := by
  have hrun := run_fill (Nat.le_of_succ_le h)
  have hsize := size_run_fill (Nat.le_of_succ_le h)
  generalize (empty capacity).run (fill n) = code at hrun hsize
  have hcell : code.cells[0]? = some ⟨.hole, false⟩ := by
    rw [hrun]
    exact Array.getElem?_append_left Nat.one_pos
  obtain ⟨branch, patched, hpatch⟩ :
      ∃ branch patched, code.patch 0 code.nextAddress = .ok (branch, patched) :=
    ⟨_, _, patch_eq_ok_iff.2 ⟨_, hcell, rfl, rfl, rfl, rfl⟩⟩
  have hroom : patched.size < patched.capacity := by
    rw [size_patch hpatch, hsize]
    obtain ⟨_, _, _, _, _, rfl⟩ := patch_eq_ok_iff.1 hpatch
    rw [hrun]
    exact h
  have hnext : n + 1 = patched.size := by rw [size_patch hpatch, hsize]
  have hemit : patched.emit instruction = .ok (n + 1, _) := emit_eq_ok_iff.2 ⟨hroom, hnext, rfl⟩
  exact ⟨branch, _, .intro hpatch (.refl patched) rfl hemit⟩

/--
Whatever is called on a buffer of this capacity, the next address is three times the length of the
code. So it is not negative, it tells the length, and it is the address of what is emitted next.
-/
structure Addressable (capacity : Nat) : Prop where
  exact : ∀ {code : Code}, (empty capacity).Reaches code →
    code.nextAddress.toInt = 3 * (code.size : Int)
  nonneg : ∀ {code : Code}, (empty capacity).Reaches code → 0 ≤ code.nextAddress.toInt
  distinct : ∀ {code other : Code}, (empty capacity).Reaches code → (empty capacity).Reaches other →
    code.size ≠ other.size → code.nextAddress ≠ other.nextAddress
  leads : ∀ {code after : Code} {index next : Nat} {branch instruction : Instruction},
    (empty capacity).Reaches code → code.Lands index branch instruction next after →
      branch.modifier.toInt = 3 * (next : Int)

theorem addressable_of_le (h : capacity ≤ 715827882) : Addressable capacity := by
  have hsize {code : Code} (hcode : (empty capacity).Reaches code) : code.size ≤ 715827882 :=
    Nat.le_trans hcode.size_le h
  have hexact {code : Code} (hcode : (empty capacity).Reaches code) :
      code.nextAddress.toInt = 3 * (code.size : Int) :=
    Instruction.toInt_wordAddress_eq_iff.2 (hsize hcode)
  constructor
  · exact hexact
  · intro code hcode
    rw [hexact hcode]
    omega
  · intro code other hcode hother hne heq
    have htoInt := congrArg Int32.toInt heq
    rw [hexact hcode, hexact hother] at htoInt
    omega
  · intro code after index next branch instruction hcode hlands
    exact hlands.toInt_modifier_eq_iff.2 (hsize hcode)

theorem le_of_addressable (h : Addressable capacity) : capacity ≤ 715827882 := by
  apply Nat.le_of_not_lt
  intro hlt
  -- There is room for the shortest code that is too long.
  have hexact := h.exact ⟨fill 715827882, rfl⟩
  have hle := Instruction.toInt_wordAddress_eq_iff.1 hexact
  rw [size_run_fill hlt] at hle
  omega

/--
The addresses are right for the capacities up to 715827882 and for no other. In every buffer the
next address is three times the length of the code, reduced to a word, which is exact for up to
715827882 instructions. Two lengths have the same address if they differ by a multiple of
4294967296. A branch that is patched to the next address stays as it is, and so does what is emitted
next, but for its own target. The branch leads there if the code was not too long for an exact
address when it was patched.
-/
theorem addressable_iff (capacity : Nat) :
    (Addressable capacity ↔ capacity ≤ 715827882) ∧
      ∀ code : Code,
        code.nextAddress.toInt = (3 * (code.size : Int)).bmod 4294967296 ∧
          (code.nextAddress.toInt = 3 * (code.size : Int) ↔ code.size ≤ 715827882) ∧
          (∀ other : Code, code.nextAddress = other.nextAddress ↔
            code.size % 4294967296 = other.size % 4294967296) ∧
          ∀ index branch instruction next after, code.Lands index branch instruction next after →
            (branch.modifier.toInt = 3 * (next : Int) ↔ code.size ≤ 715827882) ∧
              ∀ final, after.Reaches final →
                final.cells[index]? = some ⟨branch, true⟩ ∧
                  ∃ targets cell, final.cells[next]? = some cell ∧
                    Cell.Becomes ⟨instruction, false⟩ targets cell := by
  refine ⟨⟨le_of_addressable, addressable_of_le⟩, ?_⟩
  intro code
  refine ⟨?_, ?_, ?_, ?_⟩
  · exact Instruction.toInt_wordAddress_eq_bmod code.size
  · exact Instruction.toInt_wordAddress_eq_iff
  · intro other
    exact Instruction.wordAddress_eq_iff
  · intro index branch instruction next after hlands
    exact ⟨hlands.toInt_modifier_eq_iff, fun final => hlands.getElem?_of_reaches⟩

theorem addressable_iff_three :
    Addressable 3 ∧
      ∃ branch after, ((empty 3).run (fill 1)).Lands 0 branch (.system .halt) 2 after ∧
        branch.modifier.toInt = 6 ∧ after.cells[0]? = some ⟨branch, true⟩ := by
  obtain ⟨hiff, hcode⟩ := addressable_iff 3
  have hroom : 1 + 2 ≤ 3 := Nat.le_refl 3
  obtain ⟨branch, after, hlands⟩ := exists_lands_fill hroom (.system .halt)
  obtain ⟨_, _, _, hlanding⟩ := hcode ((empty 3).run (fill 1))
  obtain ⟨htoInt, hkept⟩ := hlanding _ _ _ _ _ hlands
  refine ⟨hiff.2 (by decide), branch, after, hlands, ?_, ?_⟩
  · exact htoInt.2 (by decide)
  · exact (hkept after (.refl after)).1

theorem not_addressable_of_fill :
    ((empty 715827884).run (fill 715827882)).size = 715827883 ∧
      ((empty 715827884).run (fill 715827882)).nextAddress.toInt = -2147483647 ∧
        (∃ branch after,
          ((empty 715827884).run (fill 715827882)).Lands 0 branch (.system .halt) 715827883 after ∧
            branch.modifier.toInt = -2147483647) ∧
          ¬ Addressable 715827884 := by
  -- With one instruction more, the next address is negative, and a branch does not lead there.
  have hroom : 715827882 + 2 ≤ 715827884 := by decide
  have hsize := size_run_fill (Nat.le_of_succ_le hroom)
  have hnext : ((empty 715827884).run (fill 715827882)).nextAddress.toInt = -2147483647 := by
    rw [nextAddress, hsize]
    decide
  obtain ⟨branch, after, hlands⟩ := exists_lands_fill hroom (.system .halt)
  refine ⟨hsize, hnext, ⟨branch, after, hlands, ?_⟩, ?_⟩
  · rw [hlands.modifier_eq, hnext]
  · intro haddressable
    have hnonneg := haddressable.nonneg ⟨fill 715827882, rfl⟩
    rw [hnext] at hnonneg
    omega

end Code
end PL0
