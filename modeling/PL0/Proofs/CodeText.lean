import PL0.CommandLine.Run
import PL0.Proofs.Text.Numeral

/-!
This module contains which texts can be taken for code. The code of a program can; its dump cannot,
and neither can the message of an error, as it begins with a capital letter.
-/

namespace PL0

/-- A line with three integers, of which the first is the number of an opcode. -/
def IsCodeLine (line : List Char) : Prop :=
  ∃ op level modifier, Text.fields line = [op, level, modifier] ∧
    (∃ code, Decimal.int? op = some code ∧ 1 ≤ code ∧ code ≤ 9) ∧
      (Decimal.int? level).isSome = true ∧ (Decimal.int? modifier).isSome = true

/--
A text that can be cut into one or more lines of code. The end of a line stays with the line, where
it is nothing but blanks, so that any kind of line end will do.
-/
def IsCodeText (text : List Char) : Prop :=
  ∃ lines, lines ≠ [] ∧ lines.flatten = text ∧ ∀ line ∈ lines, IsCodeLine line

theorem Instruction.fields_line (i : Instruction) :
    Text.fields i.line = [Nat.toDigits 10 i.op.code, i.level.digits, i.modifier.digits] := by
  apply (Text.spread_intercalate _).fields_eq
  simp only [List.forall_mem_cons]
  refine ⟨?_, ?_, ?_, List.forall_mem_nil _⟩
  · exact Decimal.isField_toDigits i.op.code
  · exact i.level.isField_digits
  · exact i.modifier.isField_digits

theorem Instruction.isCodeLine_line (i : Instruction) : IsCodeLine (i.line ++ ['\n']) := by
  have hop : Decimal.int? (Nat.toDigits 10 i.op.code) = some (Int.ofNat i.op.code) :=
    Decimal.int?_toDigits i.op.code
  refine ⟨Nat.toDigits 10 i.op.code, i.level.digits, i.modifier.digits, ?_, ?_, ?_, ?_⟩
  · rw [Text.fields_append_space (Text.isSpace_singleton (by decide)), i.fields_line]
  · refine ⟨_, hop, ?_⟩
    cases i.op <;> decide
  · rw [Word.int?_digits]
    rfl
  · rw [Word.int?_digits]
    rfl

theorem TargetProgram.isCodeText_codeText {p : TargetProgram} (h : p.code ≠ []) :
    IsCodeText p.codeText.toList := by
  refine ⟨(p.code.map Instruction.line).map (· ++ ['\n']), ?_, ?_, ?_⟩
  · simpa using h
  · rw [codeText, String.toList_ofList, Text.ofLines, List.flatMap_def]
  · simp only [List.forall_mem_map]
    intro i _
    exact i.isCodeLine_line

theorem IsCodeText.isDigit_or_sign {c : Char} {rest : List Char} (h : IsCodeText (c :: rest))
    (hblank : Text.isBlank c = false) : c.isDigit = true ∨ c = '+' ∨ c = '-' := by
  obtain ⟨lines, hne, hflatten, hlines⟩ := h
  obtain ⟨line, lines, rfl⟩ := List.exists_cons_of_ne_nil hne
  obtain ⟨op, level, modifier, hfields, ⟨code, hop, _⟩, _⟩ := hlines line List.mem_cons_self
  cases line with
  | nil => cases hfields
  | cons d line =>
    obtain ⟨rfl, _⟩ := List.cons.inj hflatten
    obtain ⟨c, hc, hstart⟩ := (Decimal.int?_eq_some_iff.1 hop).head?
    rw [Text.head?_of_fields hblank hfields] at hc
    cases hc
    exact hstart

theorem TargetProgram.dump_ne_codeText (p : TargetProgram) : p.dump ≠ p.codeText := by
  intro h
  have hdump : ∃ rest, p.dump.toList = '\x7b' :: rest := ⟨_, String.toList_ofList⟩
  obtain ⟨rest, hrest⟩ := hdump
  rw [h] at hrest
  by_cases hcode : p.code = []
  · rw [codeText, hcode] at hrest
    cases hrest
  · have htext := p.isCodeText_codeText hcode
    rw [hrest] at htext
    have hstart := htext.isDigit_or_sign (by decide)
    revert hstart
    decide

theorem Decimal.ofList_ofInt (n : Int) : String.ofList (Decimal.ofInt n) = toString n := by
  cases n with
  | ofNat n => rfl
  | negSucc n =>
    apply String.toList_injective
    simp [Decimal.ofInt, toString, Int.repr, Nat.repr]

theorem Instruction.ofList_line (i : Instruction) :
    String.ofList (i.line ++ ['\n']) =
      toString i.op.code ++ " " ++ toString i.level.toInt ++ " " ++ toString i.modifier.toInt ++
        "\n" := by
  rw [← Decimal.ofList_ofInt, ← Decimal.ofList_ofInt]
  apply String.toList_injective
  simp [line, Word.digits, List.intercalate, toString, Nat.repr]

theorem TargetProgram.codeText_eq_join (p : TargetProgram) :
    p.codeText = String.join (p.code.map fun i =>
      toString i.op.code ++ " " ++ toString i.level.toInt ++ " " ++ toString i.modifier.toInt ++
        "\n") := by
  simp only [← Instruction.ofList_line]
  apply String.toList_injective
  simp [codeText, Text.ofLines, List.flatMap_map]

def StartsUpper (text : String) : Prop :=
  ∃ c, text.toList.head? = some c ∧ c.isUpper = true

theorem StartsUpper.append {text : String} (h : StartsUpper text) (more : String) :
    StartsUpper (text ++ more) := by
  obtain ⟨c, hc, hupper⟩ := h
  refine ⟨c, ?_, hupper⟩
  rw [String.toList_append, List.head?_append, hc]
  rfl

theorem StartsUpper.not_isCodeText {text : String} (h : StartsUpper text) :
    ¬ IsCodeText text.toList := by
  obtain ⟨c, hc, hupper⟩ := h
  obtain ⟨rest, hrest⟩ := List.head?_eq_some_iff.1 hc
  rw [hrest]
  intro hcode
  obtain ⟨hlow, hhigh⟩ := of_decide_eq_true hupper
  have hlow : 65 ≤ c.toNat := UInt32.le_iff_toNat_le.1 hlow
  have hhigh : c.toNat ≤ 90 := UInt32.le_iff_toNat_le.1 hhigh
  have hblank : Text.isBlank c = false := by
    simp only [Text.isBlank, Text.blankRanges, List.any_cons, List.any_nil, Bool.or_false,
      Bool.or_eq_false_iff, Bool.and_eq_false_imp, decide_eq_true_eq, decide_eq_false_iff_not,
      Nat.not_le]
    omega
  obtain hdigit | rfl | rfl := hcode.isDigit_or_sign hblank
  · have hdigit : c.toNat ≤ 57 := (Char.isDigit_iff_toNat.1 hdigit).2
    omega
  · cases hupper
  · cases hupper

theorem Fault.startsUpper_message (fault : Fault) : StartsUpper fault.message := by
  refine ⟨'E', ?_, rfl⟩
  cases fault <;> decide +kernel

theorem CompileError.startsUpper_message (error : CompileError) : StartsUpper error.message := by
  cases error with
  | fault fault => exact fault.startsUpper_message
  | emptyStream => exact ⟨'F', rfl, rfl⟩
  | tooManyTokens | symbolTableFull | codeOverflow =>
    apply StartsUpper.append
    apply StartsUpper.append
    exact ⟨'F', rfl, rfl⟩
  | invalidPatch =>
    apply StartsUpper.append
    apply StartsUpper.append
    apply StartsUpper.append
    exact ⟨'F', rfl, rfl⟩

theorem RunError.startsUpper_message (error : RunError) : StartsUpper error.message := by
  cases error with
  | compiling cause => exact cause.startsUpper_message
  | reading | limits | records | writing | creating =>
    apply StartsUpper.append
    apply StartsUpper.append
    apply StartsUpper.append
    exact ⟨_, rfl, rfl⟩

theorem not_isCodeText_errorText (error : RunError) :
    ¬ IsCodeText (errorText error.message).toList :=
  (error.startsUpper_message.append "\n").not_isCodeText

end PL0
