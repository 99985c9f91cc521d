import PL0.Proofs.Text.Numeral
import PL0.Token.Record

/-!
This module contains which texts hold which tokens: the tokens of a text are exactly those whose
records it lays out. What a field means depends on the fields in front of it, so that a name can
look like a number or like the code of a kind.
-/

namespace PL0

namespace Kind

theorem ofCode?_eq_some_iff {i : Int} {kind : Kind} :
    ofCode? i = some kind ↔ kind ∈ records ∧ (kind.code : Int) = i := by
  constructor
  · intro h
    exact ⟨List.mem_of_find?_eq_some h, code_of_ofCode? h⟩
  · rintro ⟨hmem, rfl⟩
    exact ofCode?_code (mem_records.1 hmem)

theorem toInt_ofNat_code (kind : Kind) : (Int32.ofNat kind.code).toInt = kind.code := by
  apply Int32.toInt_ofNat_of_lt
  cases kind <;> decide

end Kind

namespace Token

/-- The token is one that a record can hold. -/
structure IsCanonical (token : Token) : Prop where
  kind : token.kind ∈ Kind.records
  name : token.kind = .ident → Text.IsField token.lexeme.toList
  noName : token.kind ≠ .ident → token.lexeme = ""
  noValue : token.kind ≠ .number → token.value = 0

/-- The fields are a record of the token. -/
inductive RecordOf (token : Token) : List (List Char) → Prop where
  | ident {code : List Char} (hkind : token.kind = .ident)
      (hcode : Decimal.Spells code token.kind.code) : RecordOf token [code, token.lexeme.toList]
  | number {code value : List Char} (hkind : token.kind = .number)
      (hcode : Decimal.Spells code token.kind.code)
      (hvalue : Decimal.Spells value token.value.toInt) : RecordOf token [code, value]
  | plain {code : List Char} (hident : token.kind ≠ .ident) (hnumber : token.kind ≠ .number)
      (hcode : Decimal.Spells code token.kind.code) : RecordOf token [code]

inductive RecordsOf : List Token → List (List Char) → Prop where
  | nil : RecordsOf [] []
  | cons {token : Token} {tokens : List Token} {record fields : List (List Char)}
      (hrecord : RecordOf token record) (hfields : RecordsOf tokens fields) :
      RecordsOf (token :: tokens) (record ++ fields)

/-- The text lays out records of the tokens. -/
def LaidOut (tokens : List Token) (text : List Char) : Prop :=
  ∃ fields, RecordsOf tokens fields ∧ Text.Spread fields text

/-- The shortest record of a token. -/
def record (token : Token) : List (List Char) :=
  Nat.toDigits 10 token.kind.code ::
    if token.kind = .ident then [token.lexeme.toList]
    else if token.kind = .number then [token.value.digits]
    else []

/-- The tokens as a text of records. -/
def toRecords (tokens : List Token) : String :=
  String.ofList ([' '].intercalate (tokens.flatMap record))

variable {token : Token} {tokens : List Token} {fields rest : List (List Char)} {n : Nat}

namespace IsCanonical

theorem eq_ident (h : token.IsCanonical) (hkind : token.kind = .ident) :
    token = ident token.lexeme := by
  have hvalue := h.noValue (by simp [hkind])
  cases token
  simp_all [Token.ident]

theorem eq_number (h : token.IsCanonical) (hkind : token.kind = .number) :
    token = number token.value := by
  have hlexeme := h.noName (by simp [hkind])
  cases token
  simp_all [Token.number]

theorem eq_plain (h : token.IsCanonical) (hident : token.kind ≠ .ident)
    (hnumber : token.kind ≠ .number) : token = plain token.kind := by
  have hlexeme := h.noName hident
  have hvalue := h.noValue hnumber
  cases token
  simp_all [Token.plain]

end IsCanonical

theorem exists_word_iff {code : List Char} {kind : Kind} :
    (∃ word, Word.ofDigits? code = some word ∧ Kind.ofCode? word.toInt = some kind) ↔
      kind ∈ Kind.records ∧ Decimal.Spells code kind.code := by
  constructor
  · rintro ⟨word, hword, hkind⟩
    obtain ⟨hmem, heq⟩ := Kind.ofCode?_eq_some_iff.1 hkind
    rw [heq]
    exact ⟨hmem, Word.ofDigits?_eq_some_iff.1 hword⟩
  · rintro ⟨hmem, hcode⟩
    rw [← kind.toInt_ofNat_code] at hcode
    refine ⟨Int32.ofNat kind.code, Word.ofDigits?_eq_some_iff.2 hcode, ?_⟩
    exact Kind.ofCode?_eq_some_iff.2 ⟨hmem, kind.toInt_ofNat_code.symm⟩

theorem ofFields_record_append {record : List (List Char)} (hrecord : RecordOf token record)
    (h : token.IsCanonical) (n : Nat) (rest : List (List Char)) :
    ofFields n (record ++ rest) = (ofFields (n + 1) rest).map (token :: ·) := by
  cases hrecord with
  | ident hident hcode =>
    obtain ⟨word, hword, hkind⟩ := exists_word_iff.2 ⟨h.kind, hcode⟩
    rw [hident] at hkind
    rw [List.cons_append, ofFields.eq_def]
    simp only [hword, hkind, List.cons_append, List.nil_append, String.ofList_toList,
      ← h.eq_ident hident]
  | number hnumber hcode hvalue =>
    obtain ⟨word, hword, hkind⟩ := exists_word_iff.2 ⟨h.kind, hcode⟩
    rw [hnumber] at hkind
    rw [List.cons_append, ofFields.eq_def]
    simp only [hword, hkind, List.cons_append, List.nil_append,
      Word.ofDigits?_eq_some_iff.2 hvalue, ← h.eq_number hnumber]
  | plain hident hnumber hcode =>
    obtain ⟨word, hword, hkind⟩ := exists_word_iff.2 ⟨h.kind, hcode⟩
    rw [List.cons_append, ofFields.eq_def]
    simp only [hword, hkind, List.nil_append, ← h.eq_plain hident hnumber]

theorem ofFields_of_recordsOf (hfields : RecordsOf tokens fields)
    (h : ∀ token ∈ tokens, token.IsCanonical) (n : Nat) : ofFields n fields = .ok tokens := by
  induction hfields generalizing n with
  | nil => rfl
  | cons hrecord hfields ih =>
    obtain ⟨htoken, htokens⟩ := List.forall_mem_cons.1 h
    rw [ofFields_record_append hrecord htoken, ih htokens]
    rfl

theorem recordOf_ident {code : List Char} (hcode : Decimal.Spells code Kind.ident.code)
    (name : List Char) : RecordOf (ident (String.ofList name)) [code, name] := by
  have hident : RecordOf (ident (String.ofList name)) [code, (String.ofList name).toList] :=
    .ident rfl hcode
  rwa [String.toList_ofList] at hident

theorem isCanonical_ident {name : List Char} (h : Text.IsField name) :
    (ident (String.ofList name)).IsCanonical := by
  refine ⟨Kind.mem_records.2 (by simp [ident]), ?_, by simp [ident], by simp [ident]⟩
  intro _
  rw [ident, String.toList_ofList]
  exact h

theorem isCanonical_number (value : Word) : (number value).IsCanonical :=
  ⟨Kind.mem_records.2 (by simp [number]), by simp [number], by simp [number], by simp [number]⟩

theorem isCanonical_plain {kind : Kind} (hmem : kind ∈ Kind.records) (hident : kind ≠ .ident) :
    (plain kind).IsCanonical :=
  ⟨hmem, fun hkind => absurd hkind hident, fun _ => rfl, fun _ => rfl⟩

theorem recordsOf_of_map {record : List (List Char)} (hrecord : RecordOf token record)
    (htoken : token.IsCanonical)
    (hrest : ∀ {more : List Token}, ofFields n rest = .ok more →
      RecordsOf more rest ∧ ∀ token ∈ more, token.IsCanonical)
    (h : (ofFields n rest).map (token :: ·) = .ok tokens) :
    RecordsOf tokens (record ++ rest) ∧ ∀ token ∈ tokens, token.IsCanonical := by
  cases hread : ofFields n rest with
  | error error =>
    rw [hread] at h
    cases h
  | ok more =>
    rw [hread] at h
    cases h
    obtain ⟨hmore, hcanonical⟩ := hrest hread
    exact ⟨.cons hrecord hmore, List.forall_mem_cons.2 ⟨htoken, hcanonical⟩⟩

theorem recordsOf_of_ofFields (hfields : ∀ field ∈ fields, Text.IsField field)
    (h : ofFields n fields = .ok tokens) :
    RecordsOf tokens fields ∧ ∀ token ∈ tokens, token.IsCanonical := by
  fun_induction ofFields n fields generalizing tokens with
  | case1 =>
    cases h
    exact ⟨.nil, List.forall_mem_nil _⟩
  | case2 | case3 | case4 | case6 | case7 => cases h
  | case5 n code word hword hkind name rest ih =>
    obtain ⟨_, hcode⟩ := exists_word_iff.1 ⟨word, hword, hkind⟩
    simp only [List.forall_mem_cons] at hfields
    obtain ⟨_, hname, hrest⟩ := hfields
    exact recordsOf_of_map (recordOf_ident hcode name) (isCanonical_ident hname) (ih hrest) h
  | case8 n code word hword hkind field rest value hvalue ih =>
    obtain ⟨_, hcode⟩ := exists_word_iff.1 ⟨word, hword, hkind⟩
    simp only [List.forall_mem_cons] at hfields
    have hrecord : RecordOf (number value) [code, field] :=
      .number rfl hcode (Word.ofDigits?_eq_some_iff.1 hvalue)
    exact recordsOf_of_map hrecord (isCanonical_number value) (ih hfields.2.2) h
  | case9 n code rest word hword kind hident hnumber hkind ih =>
    obtain ⟨hmem, hcode⟩ := exists_word_iff.1 ⟨word, hword, hkind⟩
    have hrecord : RecordOf (plain kind) [code] := .plain hident hnumber hcode
    have hrest := (List.forall_mem_cons.1 hfields).2
    exact recordsOf_of_map hrecord (isCanonical_plain hmem hident) (ih hrest) h

theorem RecordOf.isField {record : List (List Char)} (hrecord : RecordOf token record)
    (h : token.IsCanonical) : ∀ field ∈ record, Text.IsField field := by
  cases hrecord with
  | ident hident hcode => simpa using ⟨hcode.isField, h.name hident⟩
  | number hnumber hcode hvalue => simpa using ⟨hcode.isField, hvalue.isField⟩
  | plain hident hnumber hcode => simpa using hcode.isField

theorem RecordsOf.isField (hfields : RecordsOf tokens fields)
    (h : ∀ token ∈ tokens, token.IsCanonical) : ∀ field ∈ fields, Text.IsField field := by
  induction hfields with
  | nil => exact List.forall_mem_nil _
  | cons hrecord hfields ih =>
    obtain ⟨htoken, htokens⟩ := List.forall_mem_cons.1 h
    exact List.forall_mem_append.2 ⟨hrecord.isField htoken, ih htokens⟩

theorem ofRecords_eq_ok_iff {text : String} :
    ofRecords text = .ok tokens ↔
      (∀ token ∈ tokens, token.IsCanonical) ∧ LaidOut tokens text.toList := by
  unfold ofRecords
  constructor
  · intro h
    obtain ⟨hspread, hfields⟩ := Text.fields_eq_iff.1 (Eq.refl (Text.fields text.toList))
    obtain ⟨hrecords, hcanonical⟩ := recordsOf_of_ofFields hfields h
    exact ⟨hcanonical, _, hrecords, hspread⟩
  · rintro ⟨hcanonical, fields, hrecords, hspread⟩
    rw [hspread.fields_eq (hrecords.isField hcanonical)]
    exact ofFields_of_recordsOf hrecords hcanonical 1

theorem recordOf_record (token : Token) : RecordOf token token.record := by
  have hcode : Decimal.Spells (Nat.toDigits 10 token.kind.code) token.kind.code :=
    .unsigned 0 token.kind.code
  unfold record
  split
  · next hident => exact .ident hident hcode
  · next hident =>
    split
    · next hnumber => exact .number hnumber hcode (Decimal.spells_ofInt _)
    · next hnumber => exact .plain hident hnumber hcode

theorem laidOut_toRecords (tokens : List Token) : LaidOut tokens (toRecords tokens).toList := by
  rw [toRecords, String.toList_ofList]
  refine ⟨tokens.flatMap record, ?_, Text.spread_intercalate _⟩
  induction tokens with
  | nil => exact .nil
  | cons token tokens ih => exact .cons (recordOf_record token) ih

/--
Canonical tokens are read from every text that lays out their records. Nothing else is read from any
text: what was read can be written as records, and these are read as the same tokens again.
-/
theorem ofRecords_roundTrip (tokens : List Token) (text : String) :
    ((∀ token ∈ tokens, token.IsCanonical) → LaidOut tokens text.toList →
      ofRecords text = .ok tokens) ∧
    (ofRecords text = .ok tokens →
      (∀ token ∈ tokens, token.IsCanonical) ∧ LaidOut tokens text.toList ∧
        ofRecords (toRecords tokens) = .ok tokens) := by
  constructor
  · intro hcanonical hlaid
    exact ofRecords_eq_ok_iff.2 ⟨hcanonical, hlaid⟩
  · intro h
    obtain ⟨hcanonical, hlaid⟩ := ofRecords_eq_ok_iff.1 h
    exact ⟨hcanonical, hlaid, ofRecords_eq_ok_iff.2 ⟨hcanonical, laidOut_toRecords tokens⟩⟩

/-- A name that looks like a number, and the least number. -/
def lookalikes : List Token :=
  [.plain .readSym, .ident "3", .number (-2147483648), .plain .period]

theorem ofRecords_roundTrip_lookalikes :
    (∀ token ∈ lookalikes, token.IsCanonical) ∧
      LaidOut lookalikes "\u3000032 +2\t3\n3 -02147483648  18".toList ∧
        ofRecords "\u3000032 +2\t3\n3 -02147483648  18" = .ok lookalikes ∧
          ofRecords (toRecords lookalikes) = .ok lookalikes ∧
            toRecords lookalikes = "32 2 3 3 -2147483648 18" := by
  have hread : ofRecords "\u3000032 +2\t3\n3 -02147483648  18" = .ok lookalikes := rfl
  obtain ⟨hcanonical, hlaid, hagain⟩ := (ofRecords_roundTrip lookalikes _).2 hread
  refine ⟨hcanonical, hlaid, ?_, hagain, rfl⟩
  exact (ofRecords_roundTrip lookalikes _).1 hcanonical hlaid

end Token
end PL0
