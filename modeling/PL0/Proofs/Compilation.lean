import PL0.Proofs.Translation.Completeness

/-!
This module contains what a compilation comes to as a whole. It succeeds exactly if the tokens up to
the first period spell a program whose names are properly used and there is room for its symbols and
its code; and then it gives just these. A program that is spelled with `n` tokens declares at most
`n / 2` names and has at most `n + 2` instructions, so that up to 715827880 tokens all addresses can
be held by a word.
-/

namespace PL0

namespace Declarations

theorem length_moreSpelling {α : Type} {item : α → List Token} {n : Nat}
    (hitem : ∀ a, n ≤ (item a).length) (items : List α) :
    (n + 1) * items.length + 1 ≤ (moreSpelling item items).length := by
  induction items with
  | nil => simp [moreSpelling]
  | cons a rest ih =>
    have := hitem a
    simp only [moreSpelling, List.length_cons, List.length_append, Nat.mul_add]
    omega

theorem length_partSpelling {α : Type} {keyword : Kind} {item : α → List Token} {n : Nat}
    (hitem : ∀ a, n ≤ (item a).length) (items : List α) :
    (n + 1) * items.length ≤ (partSpelling keyword item items).length := by
  cases items with
  | nil => simp
  | cons a rest =>
    have := hitem a
    have := length_moreSpelling hitem rest
    simp only [partSpelling, List.length_cons, List.length_append, Nat.mul_add]
    omega

theorem two_mul_length_names_le (d : Declarations) : 2 * d.names.length ≤ d.spelling.length := by
  have hconsts := @length_partSpelling _ .constSym constantSpelling 1
    (by simp [constantSpelling]) d.consts
  have hvars := @length_partSpelling _ .varSym variableSpelling 1
    (by simp [variableSpelling]) d.vars
  simp only [names, spelling, List.length_append, List.length_map]
  omega

end Declarations

theorem Program.SpelledBy.length_spelling_le {program : Program} {tokens : List Token}
    (h : program.SpelledBy (Token.throughPeriod tokens)) :
    program.spelling.length ≤ tokens.length := by
  rw [← h, List.length_map]
  exact (Token.throughPeriod_isPrefix tokens).length_le

theorem Program.WellScoped.fits {program : Program} (h : program.WellScoped) {limits : Limits}
    {n : Nat} (hlength : program.spelling.length ≤ n) (hsymbols : n / 2 ≤ limits.maxSymbols)
    (hcode : n + 2 ≤ limits.maxCodeLength) : program.Fits limits := by
  constructor
  · have hnames := program.declarations.two_mul_length_names_le
    rw [Program.spelling, List.length_append] at hlength
    omega
  · have hinstructions := Program.length_code_le h
    omega

/-- A compilation succeeds with the code and the symbols of the program that is spelled. -/
theorem compile_eq_ok_iff_program {tokens : List Token} {limits : Limits} {p : TargetProgram} :
    (compile tokens limits).result = .ok p ↔
      tokens.length ≤ limits.maxTokens ∧ (∀ token ∈ tokens, token.kind ≠ .skip) ∧
        ∃ program : Program, program.SpelledBy (Token.throughPeriod tokens) ∧
          program.WellScoped ∧ program.Fits limits ∧ p = program.target := by
  rw [compile_eq_ok_iff]
  constructor
  · rintro ⟨_, hlength, hskip, t, hperforms, rfl⟩
    exact ⟨hlength, hskip, exists_program_of_performs hperforms⟩
  · rintro ⟨hlength, hskip, program, hspelled, hscoped, hfits, rfl⟩
    obtain ⟨t, hperforms⟩ := exists_performs_program hscoped hspelled hfits
    -- The pass has translated some program, and the tokens spell no other one.
    obtain ⟨program', hspelled', _, _, htarget⟩ := exists_program_of_performs hperforms
    refine ⟨?_, hlength, hskip, t, hperforms, ?_⟩
    · rintro rfl
      simp [Program.SpelledBy, Token.throughPeriod, Program.spelling] at hspelled
    · rw [htarget, Program.eq_of_spelledBy hspelled' hspelled]

/-- Words can hold all addresses in the code and in the frame of the program. -/
structure Program.Addressable (program : Program) : Prop where
  code : 3 * program.code.length < 2147483648
  frame : 3 + program.declarations.vars.length < 2147483648

theorem Program.WellScoped.addressable {program : Program} (h : program.WellScoped)
    (hlength : program.spelling.length ≤ 715827880) : program.Addressable := by
  constructor
  · have hinstructions := Program.length_code_le h
    omega
  · have hnames := program.declarations.two_mul_length_names_le
    rw [Program.spelling, List.length_append] at hlength
    rw [Declarations.names, List.length_append] at hnames
    omega

theorem exists_program_of_compile {tokens : List Token} {limits : Limits} {p : TargetProgram}
    (hlength : tokens.length ≤ 715827880) (h : (compile tokens limits).result = .ok p) :
    ∃ program : Program,
      (∀ other : Program, other.SpelledBy (Token.throughPeriod tokens) ↔ other = program) ∧
        program.WellScoped ∧ program.Addressable ∧ p = program.target := by
  obtain ⟨_, _, program, hspelled, hscoped, _, rfl⟩ := compile_eq_ok_iff_program.1 h
  refine ⟨program, ?_, hscoped, ?_, rfl⟩
  · intro other
    constructor
    · intro hother
      exact Program.eq_of_spelledBy hother hspelled
    · rintro rfl
      exact hspelled
  · apply hscoped.addressable
    exact Nat.le_trans hspelled.length_spelling_le hlength

/--
With limits that suffice for the number of tokens, a compilation succeeds exactly if there is no
`skip` token and the tokens up to the first period are those of a program whose names are properly
used.
-/
theorem exists_compile_eq_ok_iff {tokens : List Token} {limits : Limits}
    (htokens : tokens.length ≤ limits.maxTokens) (hcode : tokens.length + 2 ≤ limits.maxCodeLength)
    (hsymbols : tokens.length / 2 ≤ limits.maxSymbols) :
    (∃ p, (compile tokens limits).result = .ok p) ↔
      (∀ token ∈ tokens, token.kind ≠ .skip) ∧
        ∃ program : Program, program.SpelledBy (Token.throughPeriod tokens) ∧
          program.WellScoped := by
  simp only [compile_eq_ok_iff_program]
  constructor
  · rintro ⟨p, _, hskip, program, hspelled, hscoped, _, _⟩
    exact ⟨hskip, program, hspelled, hscoped⟩
  · rintro ⟨hskip, program, hspelled, hscoped⟩
    have hfits := hscoped.fits hspelled.length_spelling_le hsymbols hcode
    exact ⟨_, htokens, hskip, program, hspelled, hscoped, hfits, rfl⟩

theorem exists_compile_eq_ok_countdown :
    (Program.countdown.spelling ++ [Token.plain .endSym]).length = 30 ∧
      ∃ p, (compile (Program.countdown.spelling ++ [Token.plain .endSym]) ⟨15, 32, 30⟩).result =
        .ok p := by
  -- Limits that just suffice, and a token behind the period.
  refine ⟨by decide, (exists_compile_eq_ok_iff ?_ ?_ ?_).2 ⟨?_, Program.countdown, ?_, ?_⟩⟩
  case refine_6 => exact ⟨by decide, by decide, by decide⟩
  all_goals decide

theorem compile_countdown :
    (compile Program.countdown.spelling ⟨2, 16, 29⟩).result = .ok Program.countdown.target := by
  decide +kernel

end PL0
