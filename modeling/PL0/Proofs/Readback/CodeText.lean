import PL0.Proofs.CodeText
import PL0.Proofs.Text.Lines

/-!
This module contains how the code of a program is read back from its text: each line is an
instruction as three integers, and three integers are at most one instruction.
-/

namespace PL0

namespace Instruction

/-- An instruction as three integers. -/
def encode (i : Instruction) : Int × Int × Int :=
  (i.op.code, i.level.toInt, i.modifier.toInt)

def decode? (triple : Int × Int × Int) : Option Instruction := do
  let op ← Opcode.ofCode? triple.1
  let level ← Word.ofInt? triple.2.1
  let modifier ← Word.ofInt? triple.2.2
  return ⟨op, level, modifier⟩

theorem decode?_encode (i : Instruction) : decode? i.encode = some i := by
  simp [decode?, encode, Opcode.ofCode?_code]

end Instruction

namespace Text

/-- Three integers on a line. -/
def triple? (line : List Char) : Option (Int × Int × Int) :=
  match fields line with
  | [first, second, third] => do
    let first ← Decimal.int? first
    let second ← Decimal.int? second
    let third ← Decimal.int? third
    return (first, second, third)
  | _ => none

/-- The integers of a text that has three of them on each line. -/
def triples? (text : List Char) : Option (List (Int × Int × Int)) :=
  (lines text).mapM triple?

end Text

namespace Instruction

theorem triple?_line (i : Instruction) : Text.triple? i.line = some i.encode := by
  have hop : Decimal.int? (Nat.toDigits 10 i.op.code) = some (Int.ofNat i.op.code) :=
    Decimal.int?_toDigits i.op.code
  simp [Text.triple?, i.fields_line, hop, Word.int?_digits, encode]

theorem newline_notMem_line (i : Instruction) : '\n' ∉ i.line := by
  apply List.notMem_intercalate (by decide)
  rw [← i.fields_line]
  intro field hfield
  exact Text.newline_notMem_of_isField ((Text.fields_eq_iff.1 rfl).2 field hfield)

end Instruction

namespace TargetProgram

/-- The instructions that the lines of a text stand for. -/
def codeOf? (text : String) : Option (List Instruction) := do
  let triples ← Text.triples? text.toList
  triples.mapM Instruction.decode?

theorem lines_codeText (p : TargetProgram) :
    Text.lines p.codeText.toList = p.code.map Instruction.line := by
  rw [codeText, String.toList_ofList]
  apply Text.lines_ofLines
  rw [List.forall_mem_map]
  intro i _
  exact i.newline_notMem_line

theorem triples?_codeText (p : TargetProgram) :
    Text.triples? p.codeText.toList = some (p.code.map Instruction.encode) := by
  rw [Text.triples?, lines_codeText]
  apply List.mapM_map_eq_some
  intro i _
  exact i.triple?_line

theorem codeOf?_codeText (p : TargetProgram) : codeOf? p.codeText = some p.code := by
  have hdecode : (p.code.map Instruction.encode).mapM Instruction.decode? =
      some (p.code.map id) := by
    apply List.mapM_map_eq_some
    intro i _
    exact i.decode?_encode
  rw [codeOf?, triples?_codeText, Option.bind_eq_bind, Option.bind_some, hdecode, List.map_id]

/--
The text of the code has one line for each instruction. The three integers on it are those of the
instruction and lead back to it, so that the text tells all of the code.
-/
theorem codeText_decodes (p : TargetProgram) :
    (Text.lines p.codeText.toList).length = p.code.length ∧
      Text.triples? p.codeText.toList = some (p.code.map Instruction.encode) ∧
        codeOf? p.codeText = some p.code ∧
          ∀ q : TargetProgram, q.codeText = p.codeText → q.code = p.code := by
  refine ⟨?_, p.triples?_codeText, p.codeOf?_codeText, ?_⟩
  · rw [lines_codeText, List.length_map]
  · intro q hsame
    exact Text.eq_of_read_write codeOf?_codeText hsame

/-- The least and the greatest words. -/
def extremes : TargetProgram :=
  ⟨[⟨.lit, -2147483648, 2147483647⟩, ⟨.cal, -1, 0⟩], []⟩

theorem codeText_decodes_extremes :
    extremes.codeText = "1 -2147483648 2147483647\n5 -1 0\n" ∧
      (Text.lines extremes.codeText.toList).length = 2 ∧
        Text.triples? extremes.codeText.toList =
          some [(1, -2147483648, 2147483647), (5, -1, 0)] ∧
          codeOf? extremes.codeText = some extremes.code ∧
            ∀ q : TargetProgram, q.codeText = extremes.codeText → q.code = extremes.code := by
  obtain ⟨hlength, htriples, hcode, hsame⟩ := extremes.codeText_decodes
  exact ⟨by decide +kernel, hlength, htriples, hcode, hsame⟩

end TargetProgram
end PL0
