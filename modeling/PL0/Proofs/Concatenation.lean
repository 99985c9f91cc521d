import PL0.Proofs.Records
import PL0.Session

/-!
This module contains what is read from two texts one after the other. Whole records are read as if
each text stood alone, with the records of the second counted on from the first. A bad record is
refused by its own fields, so nothing that stands behind it can change the error, unless its last
field is missing.
-/

namespace PL0

namespace Text

theorem fields_eq_nil_iff {text : List Char} : fields text = [] ↔ IsSpace text := by
  constructor
  · intro h
    cases (fields_eq_iff.1 h).1 with
    | none hspace => exact hspace
  · intro h
    apply (Spread.none h).fields_eq
    apply List.forall_mem_nil

end Text

namespace RecordError

def record : RecordError → Nat
  | badKind record _ | unknownKind record _ | missingField record _ | badNumber record _ => record

/-- The same error, with `count` more records in front. -/
def delay (count : Nat) : RecordError → RecordError
  | badKind record field => badKind (record + count) field
  | unknownKind record code => unknownKind (record + count) code
  | missingField record kind => missingField (record + count) kind
  | badNumber record field => badNumber (record + count) field

theorem record_delay (error : RecordError) (count : Nat) :
    (error.delay count).record = error.record + count := by
  cases error <;> rfl

end RecordError

namespace Token

open Except (map_eq_error_iff)

variable {n : Nat} {fields rest : List (List Char)} {tokens : List Token} {error : RecordError}

/-- The fields begin with a record that is bad for the given reason. -/
inductive Refused : RecordError → List (List Char) → Prop where
  | badKind {record : Nat} {field : List Char} {rest : List (List Char)}
      (hcode : Word.ofDigits? field = none) :
      Refused (.badKind record (String.ofList field)) (field :: rest)
  | unknownKind {record : Nat} {field : List Char} {code : Word} {rest : List (List Char)}
      (hcode : Word.ofDigits? field = some code) (hkind : Kind.ofCode? code.toInt = none) :
      Refused (.unknownKind record code) (field :: rest)
  | missingField {record : Nat} {field : List Char} {code : Word} {kind : Kind}
      (hcode : Word.ofDigits? field = some code) (hkind : Kind.ofCode? code.toInt = some kind)
      (hfield : kind = .ident ∨ kind = .number) : Refused (.missingField record kind) [field]
  | badNumber {record : Nat} {field value : List Char} {code : Word} {rest : List (List Char)}
      (hcode : Word.ofDigits? field = some code) (hkind : Kind.ofCode? code.toInt = some .number)
      (hvalue : Word.ofDigits? value = none) :
      Refused (.badNumber record (String.ofList value)) (field :: value :: rest)

theorem Refused.ofFields_eq (h : Refused error fields) :
    ofFields error.record fields = .error error := by
  cases h with
  | badKind hcode =>
    rw [ofFields.eq_def]
    simp only [hcode, RecordError.record]
  | unknownKind hcode hkind =>
    rw [ofFields.eq_def]
    simp only [hcode, hkind, RecordError.record]
  | missingField hcode hkind hfield =>
    rw [ofFields.eq_def]
    obtain rfl | rfl := hfield
    · simp only [hcode, hkind, RecordError.record]
    · simp only [hcode, hkind, RecordError.record]
  | badNumber hcode hkind hvalue =>
    rw [ofFields.eq_def]
    simp only [hcode, hkind, hvalue, RecordError.record]

theorem Refused.delay (h : Refused error fields) (count : Nat) :
    Refused (error.delay count) fields := by
  cases h with
  | badKind hcode => exact .badKind hcode
  | unknownKind hcode hkind => exact .unknownKind hcode hkind
  | missingField hcode hkind hfield => exact .missingField hcode hkind hfield
  | badNumber hcode hkind hvalue => exact .badNumber hcode hkind hvalue

theorem Refused.append (h : Refused error fields)
    (hmissing : ∀ record kind, error ≠ .missingField record kind) (rest : List (List Char)) :
    Refused error (fields ++ rest) := by
  cases h with
  | badKind hcode => exact .badKind hcode
  | unknownKind hcode hkind => exact .unknownKind hcode hkind
  | missingField => exact absurd rfl (hmissing _ _)
  | badNumber hcode hkind hvalue => exact .badNumber hcode hkind hvalue

theorem ofFields_append (hfields : RecordsOf tokens fields)
    (h : ∀ token ∈ tokens, token.IsCanonical) (n : Nat) (rest : List (List Char)) :
    ofFields n (fields ++ rest) = (ofFields (n + tokens.length) rest).map (tokens ++ ·) := by
  induction hfields generalizing n with
  | nil =>
    rw [List.nil_append, List.length_nil, Nat.add_zero]
    cases ofFields n rest <;> rfl
  | @cons token tokens record fields hrecord hfields ih =>
    obtain ⟨htoken, htokens⟩ := List.forall_mem_cons.1 h
    rw [List.append_assoc, ofFields_record_append hrecord htoken, ih htokens, List.length_cons,
      Nat.add_right_comm, Nat.add_assoc]
    cases ofFields (n + (tokens.length + 1)) rest <;> rfl

/-- Reading stops at a bad record, which is counted on from the whole records in front of it. -/
structure Stops (n : Nat) (before behind : List (List Char)) (error : RecordError) : Prop where
  refused : Refused error behind
  counted : ∃ tokens, RecordsOf tokens before ∧ (∀ token ∈ tokens, token.IsCanonical) ∧
    error.record = n + tokens.length

variable {before behind : List (List Char)}

theorem Stops.le_record (h : Stops n before behind error) : n ≤ error.record := by
  obtain ⟨tokens, _, _, hrecord⟩ := h.counted
  omega

theorem Stops.ofFields_eq (h : Stops n before behind error) :
    ofFields n (before ++ behind) = .error error := by
  obtain ⟨tokens, hrecords, hcanonical, hrecord⟩ := h.counted
  rw [ofFields_append hrecords hcanonical, ← hrecord, h.refused.ofFields_eq]
  rfl

theorem Stops.delay (h : Stops n before behind error) (count : Nat) :
    Stops (n + count) before behind (error.delay count) := by
  obtain ⟨tokens, hrecords, hcanonical, hrecord⟩ := h.counted
  refine ⟨h.refused.delay count, tokens, hrecords, hcanonical, ?_⟩
  rw [RecordError.record_delay, hrecord, Nat.add_right_comm]

theorem exists_stops_of_map {token : Token} {record : List (List Char)}
    (hrecord : RecordOf token record) (htoken : token.IsCanonical)
    (hrest : ∀ {error : RecordError}, ofFields (n + 1) rest = .error error →
      ∃ before behind, rest = before ++ behind ∧ Stops (n + 1) before behind error)
    (h : (ofFields (n + 1) rest).map (token :: ·) = .error error) :
    ∃ before behind, record ++ rest = before ++ behind ∧ Stops n before behind error := by
  obtain ⟨before, behind, rfl, hstops⟩ := hrest (map_eq_error_iff.1 h)
  obtain ⟨tokens, hrecords, hcanonical, hnumber⟩ := hstops.counted
  refine ⟨record ++ before, behind, (List.append_assoc ..).symm, hstops.refused, token :: tokens,
    .cons hrecord hrecords, List.forall_mem_cons.2 ⟨htoken, hcanonical⟩, ?_⟩
  rw [hnumber, List.length_cons]
  omega

theorem stops_of_refused (h : Refused error fields) (hrecord : error.record = n) :
    ∃ before behind, fields = before ++ behind ∧ Stops n before behind error :=
  ⟨[], fields, rfl, h, [], .nil, List.forall_mem_nil _, hrecord⟩

theorem exists_stops (hfields : ∀ field ∈ fields, Text.IsField field)
    (h : ofFields n fields = .error error) :
    ∃ before behind, fields = before ++ behind ∧ Stops n before behind error := by
  fun_induction ofFields n fields generalizing error with
  | case1 => cases h
  | case2 n field rest hcode =>
    cases h
    exact stops_of_refused (.badKind hcode) rfl
  | case3 n field rest code hcode hkind =>
    cases h
    exact stops_of_refused (.unknownKind hcode hkind) rfl
  | case4 n field code hcode hkind =>
    cases h
    exact stops_of_refused (.missingField hcode hkind (.inl rfl)) rfl
  | case5 n field code hcode hkind name rest ih =>
    obtain ⟨_, hspells⟩ := exists_word_iff.1 ⟨code, hcode, hkind⟩
    simp only [List.forall_mem_cons] at hfields
    obtain ⟨_, hname, hrest⟩ := hfields
    exact exists_stops_of_map (recordOf_ident hspells name) (isCanonical_ident hname) (ih hrest) h
  | case6 n field code hcode hkind =>
    cases h
    exact stops_of_refused (.missingField hcode hkind (.inr rfl)) rfl
  | case7 n field code hcode hkind value rest hvalue =>
    cases h
    exact stops_of_refused (.badNumber hcode hkind hvalue) rfl
  | case8 n field code hcode hkind raw rest value hvalue ih =>
    obtain ⟨_, hspells⟩ := exists_word_iff.1 ⟨code, hcode, hkind⟩
    simp only [List.forall_mem_cons] at hfields
    have hrecord : RecordOf (number value) [field, raw] :=
      .number rfl hspells (Word.ofDigits?_eq_some_iff.1 hvalue)
    exact exists_stops_of_map hrecord (isCanonical_number value) (ih hfields.2.2) h
  | case9 n field rest code hcode kind hident hnumber hkind ih =>
    obtain ⟨hmem, hspells⟩ := exists_word_iff.1 ⟨code, hcode, hkind⟩
    have hrecord : RecordOf (plain kind) [field] := .plain hident hnumber hspells
    have hrest := (List.forall_mem_cons.1 hfields).2
    exact exists_stops_of_map hrecord (isCanonical_plain hmem hident) (ih hrest) h

theorem ofFields_add_of_error (hfields : ∀ field ∈ fields, Text.IsField field)
    (h : ofFields n fields = .error error) (count : Nat) :
    ofFields (n + count) fields = .error (error.delay count) := by
  obtain ⟨before, behind, rfl, hstops⟩ := exists_stops hfields h
  exact (hstops.delay count).ofFields_eq

theorem le_record_of_map {token : Token} (hfields : ∀ field ∈ fields, Text.IsField field)
    (h : (ofFields n fields).map (token :: ·) = .error error) : n ≤ error.record := by
  obtain ⟨before, behind, rfl, hstops⟩ := exists_stops hfields (map_eq_error_iff.1 h)
  exact hstops.le_record

theorem Refused.ne_missingField {next : List Char} {record : Nat} {kind : Kind}
    (h : Refused (.missingField record kind) behind) (hrest : ∀ field ∈ rest, Text.IsField field)
    (other : Kind) :
    ofFields record (behind ++ next :: rest) ≠ .error (.missingField record other) := by
  cases h with
  | @missingField _ field code _ hcode hkind hfield =>
    intro hread
    rw [List.singleton_append, ofFields.eq_def] at hread
    obtain rfl | rfl := hfield
    · simp only [hcode, hkind] at hread
      have hle := le_record_of_map hrest hread
      simp only [RecordError.record] at hle
      omega
    · simp only [hcode, hkind] at hread
      split at hread
      · cases hread
      · have hle := le_record_of_map hrest hread
        simp only [RecordError.record] at hle
        omega

theorem ofFields_append_ne_missingField {record : Nat} {kind : Kind}
    (hfields : ∀ field ∈ fields, Text.IsField field) (hrest : ∀ field ∈ rest, Text.IsField field)
    (hne : rest ≠ []) (h : ofFields n fields = .error (.missingField record kind)) (other : Kind) :
    ofFields n (fields ++ rest) ≠ .error (.missingField record other) := by
  obtain ⟨before, behind, rfl, hstops⟩ := exists_stops hfields h
  obtain ⟨tokens, hrecords, hcanonical, hrecord⟩ := hstops.counted
  obtain ⟨next, rest, rfl⟩ := List.exists_cons_of_ne_nil hne
  rw [List.append_assoc, ofFields_append hrecords hcanonical, ← hrecord]
  intro hread
  apply hstops.refused.ne_missingField (List.forall_mem_cons.1 hrest).2 other
  exact map_eq_error_iff.1 hread

/--
Texts that are set apart by blanks are read one after the other. The records of the second are
counted on from those of the first, and a bad record in the first is the error whatever the second
holds, except that a record which lacks its last field takes it from there.
-/
theorem ofRecords_append (first space second : String) (hspace : Text.IsSpace space.toList)
    (hne : space ≠ "") :
    (∀ tokens, ofRecords first = .ok tokens →
      (∀ more, ofRecords second = .ok more →
        ofRecords (first ++ space ++ second) = .ok (tokens ++ more)) ∧
      (∀ error, ofRecords second = .error error →
        ofRecords (first ++ space ++ second) = .error (error.delay tokens.length))) ∧
    (∀ error, ofRecords first = .error error →
      (∀ record kind, error ≠ .missingField record kind) →
        ofRecords (first ++ space ++ second) = .error error) ∧
    (∀ record kind, ofRecords first = .error (.missingField record kind) →
      (Text.IsSpace second.toList →
        ofRecords (first ++ space ++ second) = .error (.missingField record kind)) ∧
      (¬ Text.IsSpace second.toList → ∀ other,
        ofRecords (first ++ space ++ second) ≠ .error (.missingField record other))) := by
  have hgap : space.toList ≠ [] := by simpa using hne
  have hfields := (Text.fields_eq_iff.1 (Eq.refl (Text.fields first.toList))).2
  have hmore := (Text.fields_eq_iff.1 (Eq.refl (Text.fields second.toList))).2
  have hjoin : Text.fields (first ++ space ++ second).toList =
      Text.fields first.toList ++ Text.fields second.toList := by
    rw [String.toList_append, String.toList_append, Text.fields_append_gap hspace hgap]
  unfold ofRecords
  rw [hjoin]
  refine ⟨?_, ?_, ?_⟩
  · intro tokens hread
    obtain ⟨hrecords, hcanonical⟩ := recordsOf_of_ofFields hfields hread
    rw [ofFields_append hrecords hcanonical]
    constructor
    · intro more hsecond
      obtain ⟨hrecords', hcanonical'⟩ := recordsOf_of_ofFields hmore hsecond
      rw [ofFields_of_recordsOf hrecords' hcanonical']
      rfl
    · intro error hsecond
      rw [ofFields_add_of_error hmore hsecond]
      rfl
  · intro error hread hmissing
    obtain ⟨before, behind, hsplit, hrefused, hcounted⟩ := exists_stops hfields hread
    have hstops : Stops 1 before (behind ++ Text.fields second.toList) error :=
      ⟨hrefused.append hmissing _, hcounted⟩
    rw [hsplit, List.append_assoc]
    exact hstops.ofFields_eq
  · intro record kind hread
    constructor
    · intro hblank
      rw [Text.fields_eq_nil_iff.2 hblank, List.append_nil]
      exact hread
    · intro hblank
      have hsecond : Text.fields second.toList ≠ [] := mt Text.fields_eq_nil_iff.1 hblank
      exact ofFields_append_ne_missingField hfields hmore hsecond hread

theorem ofRecords_append_torn :
    Text.IsSpace "\u3000".toList ∧ ofRecords "31 3" = .error (.missingField 2 .number) ∧
      (∀ other, ofRecords ("31 3" ++ "\u3000" ++ "18 x") ≠ .error (.missingField 2 other)) ∧
        ofRecords "18 x" = .error (.badKind 2 "x") ∧
          ofRecords ("31 3 7" ++ "\n" ++ "18 x") = .error (.badKind 4 "x") := by
  -- The second text begins with what the first one lacks, and has a bad record of its own.
  have hspace : Text.IsSpace "\u3000".toList := by decide
  have hline : Text.IsSpace "\n".toList := by decide
  obtain ⟨_, _, hmissing⟩ := ofRecords_append "31 3" "\u3000" "18 x" hspace (by decide)
  obtain ⟨hread, _⟩ := ofRecords_append "31 3 7" "\n" "18 x" hline (by decide)
  refine ⟨hspace, rfl, (hmissing 2 .number rfl).2 (by decide), rfl, ?_⟩
  exact (hread [.plain .writeSym, .number 7] rfl).2 _ rfl

end Token
end PL0
