import PL0.Text.Blank

/-!
This module contains which texts have given fields: exactly those that hold the fields one after the
other with blanks between them.
-/

namespace PL0
namespace Text

/-- A text of blanks only. -/
def IsSpace (text : List Char) : Prop :=
  ∀ c ∈ text, isBlank c = true

instance (text : List Char) : Decidable (IsSpace text) :=
  decidable_of_iff (text.all isBlank = true) List.all_eq_true

/-- What blanks can set apart: something, and no blank in it. -/
def IsField (field : List Char) : Prop :=
  field ≠ [] ∧ ∀ c ∈ field, isBlank c = false

instance (field : List Char) : Decidable (IsField field) :=
  decidable_of_iff (field ≠ [] ∧ field.all (! isBlank ·) = true) (by simp [IsField])

/--
The text is made of the given pieces in their order. There is space between any two of them, and
there may be some at both ends.
-/
inductive Spread : List (List Char) → List Char → Prop where
  | none {space : List Char} (hspace : IsSpace space) : Spread [] space
  | last {lead piece trail : List Char} (hlead : IsSpace lead) (htrail : IsSpace trail) :
      Spread [piece] (lead ++ piece ++ trail)
  | more {lead piece gap text : List Char} {pieces : List (List Char)} (hlead : IsSpace lead)
      (hgap : IsSpace gap) (hne : gap ≠ []) (h : Spread pieces text) :
      Spread (piece :: pieces) (lead ++ piece ++ gap ++ text)

variable {space text field : List Char} {pieces : List (List Char)}

theorem isSpace_nil : IsSpace [] := by
  simp [IsSpace]

theorem isSpace_cons {c : Char} : IsSpace (c :: text) ↔ isBlank c = true ∧ IsSpace text := by
  simp [IsSpace]

theorem isSpace_singleton {c : Char} (h : isBlank c = true) : IsSpace [c] :=
  isSpace_cons.2 ⟨h, isSpace_nil⟩

theorem fields_space_append (h : IsSpace space) (text : List Char) :
    fields (space ++ text) = fields text := by
  induction space with
  | nil => rfl
  | cons c space ih =>
    obtain ⟨hblank, hspace⟩ := isSpace_cons.1 h
    have hcons := fields_append_cons hblank [] (space ++ text)
    rw [List.nil_append] at hcons
    rw [List.cons_append, hcons, ih hspace]
    rfl

theorem fields_append_gap {gap : List Char} (h : IsSpace gap) (hne : gap ≠ [])
    (text text' : List Char) : fields (text ++ gap ++ text') = fields text ++ fields text' := by
  cases gap with
  | nil => exact absurd rfl hne
  | cons c gap =>
    obtain ⟨hblank, hgap⟩ := isSpace_cons.1 h
    rw [List.append_assoc, List.cons_append, fields_append_cons hblank, fields_space_append hgap]

theorem fields_append_space (h : IsSpace space) (text : List Char) :
    fields (text ++ space) = fields text := by
  by_cases hne : space = []
  · rw [hne, List.append_nil]
  · have hgap := fields_append_gap h hne text []
    rw [List.append_nil] at hgap
    rw [hgap]
    exact List.append_nil _

theorem fields_of_isField (h : IsField field) : fields field = [field] := by
  unfold fields
  rw [List.splitOnP_eq_singleton h.2]
  simp [h.1]

theorem Spread.fields_eq (h : Spread pieces text) (hpieces : ∀ piece ∈ pieces, IsField piece) :
    fields text = pieces := by
  induction h with
  | none hspace =>
    have hfields := fields_append_space hspace []
    rwa [List.nil_append] at hfields
  | last hlead htrail =>
    rw [fields_append_space htrail, fields_space_append hlead]
    exact fields_of_isField (hpieces _ (List.mem_singleton_self _))
  | more hlead hgap hne h ih =>
    obtain ⟨hpiece, hrest⟩ := List.forall_mem_cons.1 hpieces
    rw [fields_append_gap hgap hne, fields_space_append hlead, fields_of_isField hpiece, ih hrest]
    rfl

theorem Spread.space_append (h : Spread pieces text) (hspace : IsSpace space) :
    Spread pieces (space ++ text) := by
  have hjoin {lead : List Char} (hlead : IsSpace lead) : IsSpace (space ++ lead) := by
    intro c hc
    exact (List.mem_append.1 hc).elim (hspace c) (hlead c)
  cases h with
  | none htext => exact none (hjoin htext)
  | last hlead htrail =>
    simp only [← List.append_assoc]
    exact last (hjoin hlead) htrail
  | more hlead hgap hne h =>
    simp only [← List.append_assoc]
    exact more (hjoin hlead) hgap hne h

theorem spread_singleton (piece : List Char) : Spread [piece] piece := by
  have hlast : Spread [piece] ([] ++ piece ++ []) := .last isSpace_nil isSpace_nil
  rwa [List.nil_append, List.append_nil] at hlast

theorem Spread.cons (h : Spread pieces text) (piece : List Char) {c : Char}
    (hblank : isBlank c = true) : Spread (piece :: pieces) (piece ++ [c] ++ text) := by
  have hmore : Spread (piece :: pieces) ([] ++ piece ++ [c] ++ text) :=
    more isSpace_nil (isSpace_singleton hblank) (List.cons_ne_nil c []) h
  rwa [List.nil_append] at hmore

theorem exists_spread_append (text : List Char) {word : List Char}
    (hword : ∀ c ∈ word, isBlank c = false) :
    ∃ pieces, Spread pieces (word ++ text) ∧ ∀ piece ∈ pieces, IsField piece := by
  -- Reading from the left, `word` is what has been read of a field that may go on in `text`.
  induction text generalizing word with
  | nil =>
    rw [List.append_nil]
    by_cases hne : word = []
    · exact ⟨[], hne ▸ .none isSpace_nil, by simp⟩
    · exact ⟨[word], spread_singleton word, List.forall_mem_singleton.2 ⟨hne, hword⟩⟩
  | cons c text ih =>
    cases hblank : isBlank c with
    | true =>
      obtain ⟨pieces, hspread, hpieces⟩ := ih (List.forall_mem_nil _)
      rw [List.nil_append] at hspread
      by_cases hne : word = []
      · exact ⟨pieces, hne ▸ hspread.space_append (isSpace_singleton hblank), hpieces⟩
      · refine ⟨word :: pieces, ?_, List.forall_mem_cons.2 ⟨⟨hne, hword⟩, hpieces⟩⟩
        have hcons := hspread.cons word hblank
        rwa [List.append_assoc] at hcons
    | false =>
      have hlonger : ∀ d ∈ word ++ [c], isBlank d = false := by
        intro d hd
        obtain hd | hd := List.mem_append.1 hd
        · exact hword d hd
        · rw [List.mem_singleton.1 hd]
          exact hblank
      obtain ⟨pieces, hspread, hpieces⟩ := ih hlonger
      rw [List.append_assoc] at hspread
      exact ⟨pieces, hspread, hpieces⟩

theorem fields_eq_iff :
    fields text = pieces ↔ Spread pieces text ∧ ∀ piece ∈ pieces, IsField piece := by
  constructor
  · rintro rfl
    obtain ⟨pieces, hspread, hpieces⟩ := exists_spread_append text (List.forall_mem_nil _)
    rw [List.nil_append] at hspread
    rw [hspread.fields_eq hpieces]
    exact ⟨hspread, hpieces⟩
  · rintro ⟨hspread, hpieces⟩
    exact hspread.fields_eq hpieces

theorem head?_of_fields {c : Char} {rest : List Char}
    (hblank : isBlank c = false) (h : fields (c :: rest) = field :: pieces) :
    field.head? = some c := by
  have hfirst {lead trail : List Char} (hlead : IsSpace lead) (hfield : IsField field)
      (heq : c :: rest = lead ++ (field ++ trail)) : field.head? = some c := by
    cases lead with
    | nil =>
      obtain ⟨d, tail, rfl⟩ := List.exists_cons_of_ne_nil hfield.1
      rw [(List.cons.inj heq).1]
      rfl
    | cons d lead =>
      have hspace := (isSpace_cons.1 hlead).1
      rw [← (List.cons.inj heq).1, hblank] at hspace
      cases hspace
  obtain ⟨hspread, hfields⟩ := fields_eq_iff.1 h
  have hfield := hfields field List.mem_cons_self
  generalize htext : c :: rest = text at hspread
  cases hspread with
  | last hlead htrail =>
    rw [List.append_assoc] at htext
    exact hfirst hlead hfield htext
  | more hlead hgap hne hmore =>
    rw [List.append_assoc, List.append_assoc] at htext
    exact hfirst hlead hfield htext

theorem spread_intercalate (pieces : List (List Char)) :
    Spread pieces ([' '].intercalate pieces) := by
  induction pieces with
  | nil => exact .none isSpace_nil
  | cons piece pieces ih =>
    cases pieces with
    | nil =>
      rw [List.intercalate_singleton]
      exact spread_singleton piece
    | cons next pieces =>
      rw [List.intercalate_cons_cons]
      exact ih.cons piece (by decide)

end Text
end PL0
