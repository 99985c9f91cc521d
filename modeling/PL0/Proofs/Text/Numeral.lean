import PL0.Proofs.Text.Fields
import PL0.Word

/-!
This module contains which texts read as a given integer: its digits behind any number of zeros,
behind at most one sign.
-/

namespace PL0
namespace Decimal

def padded (zeros n : Nat) : List Char :=
  List.replicate zeros '0' ++ Nat.toDigits 10 n

/-- The text is a numeral of the integer. -/
inductive Spells : List Char → Int → Prop where
  | unsigned (zeros n : Nat) : Spells (padded zeros n) n
  | plus (zeros n : Nat) : Spells ('+' :: padded zeros n) n
  | minus (zeros n : Nat) : Spells ('-' :: padded zeros n) (- n)

variable {cs : List Char} {c : Char} {n : Nat} {i : Int}

theorem isDigit_of_mem_padded {zeros : Nat} (h : c ∈ padded zeros n) : c.isDigit = true := by
  obtain h | h := List.mem_append.1 h
  · rw [List.eq_of_mem_replicate h]
    rfl
  · exact isDigit_of_mem_toDigits h

theorem nat?_eq_some_iff_ofDigitChars :
    nat? cs = some n ↔ cs ≠ [] ∧ (∀ c ∈ cs, c.isDigit = true) ∧ Nat.ofDigitChars 10 cs 0 = n := by
  unfold nat?
  split
  · next h =>
    simp only [Bool.or_eq_true, List.isEmpty_iff, List.any_eq_true] at h
    simp only [reduceCtorEq, false_iff]
    rintro ⟨hne, hdigits, _⟩
    obtain rfl | ⟨c, hmem, hc⟩ := h
    · exact hne rfl
    · simp [hdigits c hmem] at hc
  · next h =>
    simp only [Bool.or_eq_true, List.isEmpty_iff, List.any_eq_true, not_or, not_exists, not_and,
      Bool.not_eq_true', Bool.not_eq_false] at h
    rw [Option.some.injEq]
    exact ⟨fun hvalue => ⟨h.1, h.2, hvalue⟩, fun hn => hn.2.2⟩

theorem nat?_padded (zeros n : Nat) : nat? (padded zeros n) = some n := by
  rw [nat?_eq_some_iff_ofDigitChars]
  refine ⟨?_, ?_, ?_⟩
  · unfold padded
    simp [Nat.toDigits_ne_nil]
  · intro c hc
    exact isDigit_of_mem_padded hc
  · rw [padded, Nat.ofDigitChars_append, Nat.ofDigitChars_replicate_zero, Nat.mul_zero,
      Nat.ofDigitChars_ten_toDigits]

theorem exists_eq_digitChar (h : c.isDigit = true) : ∃ d < 10, c = d.digitChar := by
  obtain ⟨hlow, hhigh⟩ := Char.isDigit_iff_toNat.1 h
  have hlow : 48 ≤ c.toNat := hlow
  have hhigh : c.toNat ≤ 57 := hhigh
  have hlt : c.toNat - 48 < 10 := by omega
  refine ⟨c.toNat - 48, hlt, ?_⟩
  apply Char.toNat_inj.1
  rw [Nat.toNat_digitChar_of_lt_ten hlt]
  omega

theorem toDigits_append_of_isDigit (hdigits : ∀ c ∈ cs, c.isDigit = true) (hpos : 0 < n) :
    Nat.toDigits 10 n ++ cs = Nat.toDigits 10 (Nat.ofDigitChars 10 cs n) := by
  induction cs generalizing n with
  | nil => simp
  | cons c cs ih =>
    obtain ⟨hc, hcs⟩ := List.forall_mem_cons.1 hdigits
    obtain ⟨d, hd, rfl⟩ := exists_eq_digitChar hc
    rw [Nat.ofDigitChars_cons_digitChar_of_lt_ten hd, ← ih hcs (by omega),
      ← Nat.toDigits_append_toDigits (by decide) hpos hd, Nat.toDigits_of_lt_base hd,
      List.append_assoc, List.singleton_append]

theorem exists_eq_padded (hne : cs ≠ []) (hdigits : ∀ c ∈ cs, c.isDigit = true) :
    ∃ zeros, cs = padded zeros (Nat.ofDigitChars 10 cs 0) := by
  induction cs with
  | nil => exact absurd rfl hne
  | cons c cs ih =>
    obtain ⟨hc, hcs⟩ := List.forall_mem_cons.1 hdigits
    obtain ⟨d, hd, rfl⟩ := exists_eq_digitChar hc
    rw [Nat.ofDigitChars_cons_digitChar_of_lt_ten hd, Nat.mul_zero, Nat.zero_add]
    by_cases hzero : d = 0
    · -- A zero in front is padding, unless it is all there is.
      subst hzero
      by_cases hlast : cs = []
      · exact ⟨0, by rw [hlast]; rfl⟩
      · obtain ⟨zeros, hzeros⟩ := ih hlast hcs
        refine ⟨zeros + 1, ?_⟩
        rw [padded, List.replicate_succ, List.cons_append, ← padded, ← hzeros]
        rfl
    · refine ⟨0, ?_⟩
      rw [padded, ← toDigits_append_of_isDigit hcs (Nat.pos_of_ne_zero hzero),
        Nat.toDigits_of_lt_base hd]
      rfl

theorem nat?_eq_some_iff : nat? cs = some n ↔ ∃ zeros, cs = padded zeros n := by
  constructor
  · intro h
    obtain ⟨hne, hdigits, rfl⟩ := nat?_eq_some_iff_ofDigitChars.1 h
    exact exists_eq_padded hne hdigits
  · rintro ⟨zeros, rfl⟩
    exact nat?_padded zeros n

theorem int?_of_isDigit (hdigits : ∀ c ∈ cs, c.isDigit = true) :
    int? cs = (nat? cs).map Int.ofNat := by
  unfold int?
  split
  · exact absurd (hdigits '+' List.mem_cons_self) (by decide)
  · exact absurd (hdigits '-' List.mem_cons_self) (by decide)
  · rfl

theorem int?_eq_some_iff : int? cs = some i ↔ Spells cs i := by
  constructor
  · intro h
    unfold int? at h
    split at h
    all_goals
      obtain ⟨n, hn, rfl⟩ := Option.map_eq_some_iff.1 h
      obtain ⟨zeros, rfl⟩ := nat?_eq_some_iff.1 hn
    · exact .plus zeros n
    · exact .minus zeros n
    · exact .unsigned zeros n
  · intro h
    cases h with
    | unsigned zeros n =>
      rw [int?_of_isDigit fun c hc => isDigit_of_mem_padded hc, nat?_padded]
      rfl
    | plus zeros n =>
      rw [int?, nat?_padded]
      rfl
    | minus zeros n =>
      rw [int?, nat?_padded]
      rfl

theorem spells_ofInt (i : Int) : Spells (ofInt i) i :=
  int?_eq_some_iff.1 (int?_ofInt i)

theorem isBlank_of_isDigit (h : c.isDigit = true) : Text.isBlank c = false := by
  obtain ⟨d, hd, rfl⟩ := exists_eq_digitChar h
  revert d
  decide

theorem isField_padded (zeros n : Nat) : Text.IsField (padded zeros n) := by
  refine ⟨?_, ?_⟩
  · exact (nat?_eq_some_iff_ofDigitChars.1 (nat?_padded zeros n)).1
  · intro c hc
    exact isBlank_of_isDigit (isDigit_of_mem_padded hc)

theorem isField_toDigits (n : Nat) : Text.IsField (Nat.toDigits 10 n) :=
  isField_padded 0 n

theorem Spells.isField (h : Spells cs i) : Text.IsField cs := by
  cases h with
  | unsigned zeros n => exact isField_padded zeros n
  | plus zeros n =>
    exact ⟨List.cons_ne_nil _ _, List.forall_mem_cons.2 ⟨by decide, (isField_padded zeros n).2⟩⟩
  | minus zeros n =>
    exact ⟨List.cons_ne_nil _ _, List.forall_mem_cons.2 ⟨by decide, (isField_padded zeros n).2⟩⟩

theorem Spells.head? (h : Spells cs i) :
    ∃ c, cs.head? = some c ∧ (c.isDigit = true ∨ c = '+' ∨ c = '-') := by
  cases h with
  | unsigned zeros n =>
    obtain ⟨c, rest, hcons⟩ := List.exists_cons_of_ne_nil (isField_padded zeros n).1
    have hmem : c ∈ padded zeros n := by
      rw [hcons]
      exact List.mem_cons_self
    rw [hcons]
    exact ⟨c, rfl, .inl (isDigit_of_mem_padded hmem)⟩
  | plus => exact ⟨'+', rfl, .inr (.inl rfl)⟩
  | minus => exact ⟨'-', rfl, .inr (.inr rfl)⟩

end Decimal

namespace Word

theorem ofInt?_eq_some_iff {i : Int} {w : Word} : ofInt? i = some w ↔ w.toInt = i := by
  constructor
  · intro h
    unfold ofInt? at h
    split at h
    · next hfits =>
      cases h
      apply Int32.toInt_ofInt_of_le
      · exact hfits.1
      · exact Int.lt_add_one_of_le hfits.2
    · cases h
  · rintro rfl
    exact ofInt?_toInt w

theorem ofDigits?_eq_some_iff {cs : List Char} {w : Word} :
    ofDigits? cs = some w ↔ Decimal.Spells cs w.toInt := by
  unfold ofDigits?
  rw [Option.bind_eq_some_iff]
  constructor
  · rintro ⟨i, hi, hw⟩
    rw [ofInt?_eq_some_iff.1 hw]
    exact Decimal.int?_eq_some_iff.1 hi
  · intro h
    exact ⟨w.toInt, Decimal.int?_eq_some_iff.2 h, ofInt?_toInt w⟩

theorem int?_digits (w : Word) : Decimal.int? w.digits = some w.toInt :=
  Decimal.int?_ofInt w.toInt

theorem isField_digits (w : Word) : Text.IsField w.digits :=
  (Decimal.spells_ofInt w.toInt).isField

end Word
end PL0
