import Mathlib.Data.Nat.ModEq
import PL0.Proofs.Move

/-!
This module contains the bound of the code by the tokens: a pass emits at most one instruction for
each token that it reads, and three more. Each task has a number of instructions that are owed for
it beyond one for each token that is read for it. The code together with what is owed never grows by
more than what is read, so the bound also holds where a task fails.
-/

namespace PL0

namespace Effect

/-- The number of instructions that are emitted. -/
def emits : Effect → Nat
  | emit _ | close => 1
  | none | declare _ | patch _ => 0

theorem size_code_apply {effect : Effect} {s t : Session} (h : effect.apply s = .ok t) :
    t.code.size = s.code.size + effect.emits := by
  cases apply_eq_ok_iff.1 h with
  | none | declare => rfl
  | emit hemit | close hemit => exact Code.size_emit hemit
  | patch hpatch => exact Code.size_patch hpatch

end Effect

namespace Task

/--
How many instructions are owed from the task on, if `n` are owed behind it. The token `do` pays for
the jump back.
-/
def owes (task : Task) (n : Nat) : Nat :=
  match task with
  | expect kind _ => if kind = .doSym then n - 1 else n
  | emit _ | variablePart | variableName _ | moreVariables _ | readTarget | thenPart | loopPart _ =>
    n + 1
  | receive _ => n + 2
  | declare _ | patch _ | constantPart | constantName | constantValue _ | moreConstants | statement
  | moreStatements | condition | relation | expression | moreTerms | term | moreFactors | factor
  | finish => n

def owed (agenda : List Task) : Nat :=
  agenda.foldr owes 0

theorem owes_move {task : Task} {token : Token} {scope : Scope} {size : Nat} {move : Move}
    (htask : task.Proper) (h : task.move token scope size = .ok move) (n : Nat) :
    move.more.foldr owes n + move.effect.emits ≤ task.owes n + move.reads.toNat := by
  revert h
  fun_cases Task.move task token scope size
  all_goals
    rintro ⟨⟩
    try simp [Effect.emits, owes]
  · split <;> omega
  · simp [Proper] at htask

end Task

namespace Pass

/-- How many instructions are still owed for the agenda; the last one is for its end. -/
def owed (p : Pass) : Nat :=
  Task.owed p.agenda + if p.agenda = [] then 0 else 1

/-- The code and what is owed exceed the tokens that have been read by no more than three. -/
def Paid (p : Pass) : Prop :=
  p.session.code.size + p.owed ≤ p.session.cursor.position + 3

theorem Paid.step {p q : Pass} (hproper : p.Proper) (hstep : p.step = .next q) (h : p.Paid) :
    q.Paid := by
  unfold Paid owed Task.owed at *
  obtain ⟨task, tasks, move, t, hagenda, htask, _, hmove, happly, rfl⟩ |
    ⟨t, hagenda, _, happly, rfl⟩ := hproper.exists_of_step hstep
  all_goals
    have hsize := Effect.size_code_apply happly
    have hcursor := Effect.cursor_apply happly
  · have howes := Task.owes_move htask hmove (Task.owed (tasks ++ [.finish]))
    simp only [hagenda, List.foldr_cons, reduceCtorEq, if_false, List.foldr_append,
      List.append_eq_nil_iff, List.cons_ne_self, and_false, Task.owed] at h howes ⊢
    cases hreads : move.reads with
    | false =>
      simp only [hreads, Bool.false_eq_true, if_false, hcursor, hsize, Bool.toNat_false] at howes ⊢
      omega
    | true =>
      have hkind := (Task.kind_ne_of_reads htask hmove hreads).2
      have hposition := Cursor.position_advance hkind
      simp only [hreads, if_true, Session.cursor_advance, Session.code_advance, hcursor, hsize,
        hposition, Bool.toNat_true] at howes ⊢
      omega
  · simp only [hagenda, List.foldr_cons, List.foldr_nil, Task.owes, reduceCtorEq, if_false, hsize,
      hcursor, Effect.emits, if_true] at h ⊢
    omega

theorem paid_program (cursor : Cursor) (maxSymbols maxCodeLength : Nat) :
    Paid ⟨Task.program, .start cursor maxSymbols maxCodeLength⟩ := by
  simp [Paid, owed, Task.owed, Task.program, Task.owes, Session.start, Code.empty, Code.size]

theorem paid_of_run {cursor : Cursor} {maxSymbols maxCodeLength : Nat} {q : Pass}
    {result : Except CompileError Unit}
    (h : run ⟨Task.program, .start cursor maxSymbols maxCodeLength⟩ = (result, q)) :
    q.Proper ∧ q.Paid := by
  apply (proper_program _).run_of_step Paid Paid.step h
  exact paid_program cursor maxSymbols maxCodeLength

end Pass

theorem Session.size_code_le_of_pass {tokens : List Token} {maxSymbols maxCodeLength : Nat}
    {result : Except CompileError Unit} {t : Session}
    (h : (start ⟨[], tokens⟩ maxSymbols maxCodeLength).pass = (result, t)) :
    t.code.size ≤ tokens.length + 2 := by
  obtain ⟨_, _, rfl⟩ | ⟨_, q, hrun, rfl⟩ := pass_cases h
  · exact Nat.zero_le _
  · obtain ⟨hproper, hpaid⟩ := Pass.paid_of_run hrun
    have htokens : q.session.cursor.tokens = tokens := Pass.tokens_run hrun
    have hposition := q.session.cursor.position_add_length_rest
    rw [htokens] at hposition
    unfold Pass.Paid Pass.owed at hpaid
    cases hproper with
    | underWay htasks s =>
      simp only [List.append_eq_nil_iff, List.cons_ne_self, and_false, if_false]
        at hpaid hposition ⊢
      omega
    | @ended s hkind =>
      -- The period has not been read, so there is one token more than those that have been.
      have hrest : s.cursor.rest ≠ [] := by
        intro hnil
        simp [Session.kind, Cursor.kind, Cursor.current, hnil, Token.endOfInput, Token.plain]
          at hkind
      have hlength := List.length_pos_iff.2 hrest
      simp only [if_true] at hpaid hposition ⊢
      omega

namespace Instruction

theorem toInt_wordAddress_eq_bmod (index : Nat) :
    (wordAddress index).toInt = (3 * (index : Int)).bmod UInt32.size := by
  rw [wordAddress, Int32.toInt_ofNat', width, Int.natCast_mul, Int.mul_comm]
  rfl

theorem toInt_wordAddress_eq_iff {index : Nat} :
    (wordAddress index).toInt = 3 * (index : Int) ↔ index ≤ 715827882 := by
  rw [toInt_wordAddress_eq_bmod, Int.bmod_def, UInt32.size]
  omega

theorem wordAddress_eq_iff {i j : Nat} :
    wordAddress i = wordAddress j ↔ i % UInt32.size = j % UInt32.size := by
  have hbits (index : Nat) : (wordAddress index).toBitVec.toNat = index * width % UInt32.size := by
    rw [wordAddress, Int32.toBitVec_ofNat', BitVec.toNat_ofNat]
  -- The width has no factor in common with the number of words.
  have hwidth : Nat.gcd UInt32.size width = 1 := by decide
  rw [← Int32.toBitVec_inj, ← BitVec.toNat_inj, hbits, hbits]
  exact ⟨Nat.ModEq.cancel_right_of_coprime hwidth, Nat.ModEq.mul_right width⟩

theorem toInt_wordAddress_of_le {n index : Nat} (hlength : n ≤ 715827880)
    (hindex : index ≤ n + 2) : (wordAddress index).toInt = 3 * (index : Int) :=
  toInt_wordAddress_eq_iff.2 (by omega)

end Instruction
end PL0
