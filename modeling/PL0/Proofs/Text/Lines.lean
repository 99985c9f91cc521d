import PL0.Proofs.Text.Fields
import PL0.Text.Column
import PL0.Util.List

/-!
This module contains how written lines are taken apart again. A text of ended lines has just these
lines, and the fields of a row are its cells, whatever the widths of the columns, with the fields of
the gap between any two of them.
-/

namespace PL0
namespace Text

/-- The lines of a text. A line feed ends a line; the last line can do without. -/
def lines (text : List Char) : List (List Char) :=
  let pieces := text.splitOnP (· == '\n')
  if pieces.getLast? = some [] then pieces.dropLast else pieces

variable {gap line : List Char}

theorem lines_append_cons (h : '\n' ∉ line) (text : List Char) :
    lines (line ++ '\n' :: text) = line :: lines text := by
  have hpieces : (line ++ '\n' :: text).splitOnP (· == '\n') =
      line :: text.splitOnP (· == '\n') := by
    have hwhole : ∀ c ∈ line, (c == '\n') = false := by
      rintro c hc
      apply beq_false_of_ne
      rintro rfl
      exact h hc
    rw [List.splitOnP_append_cons line text (by rfl), List.splitOnP_eq_singleton hwhole,
      List.singleton_append]
  have hne : text.splitOnP (· == '\n') ≠ [] := List.splitOnP_ne_nil _ _
  simp only [lines, hpieces, List.getLast?_cons_of_ne_nil hne, List.dropLast_cons_of_ne_nil hne]
  split
  · rfl
  · rfl

theorem lines_ofLines {rows : List (List Char)} (h : ∀ line ∈ rows, '\n' ∉ line) :
    lines (ofLines rows) = rows := by
  induction rows with
  | nil => rfl
  | cons line rows ih =>
    obtain ⟨hline, hrows⟩ := List.forall_mem_cons.1 h
    have hcons : ofLines (line :: rows) = line ++ '\n' :: ofLines rows := by
      simp [ofLines]
    rw [hcons, lines_append_cons hline, ih hrows]

theorem newline_notMem_of_isField {field : List Char} (h : IsField field) : '\n' ∉ field := by
  intro hmem
  have hblank : isBlank '\n' = false := h.2 '\n' hmem
  revert hblank
  decide

theorem newline_notMem_row {cells : List (Nat × List Char)} (hgap : '\n' ∉ gap)
    (hcells : ∀ cell ∈ cells, IsField cell.2) : '\n' ∉ row gap cells := by
  apply List.notMem_intercalate hgap
  rw [List.forall_mem_map]
  intro cell hcell hmem
  rw [List.leftpad, List.mem_append] at hmem
  obtain hmem | hmem := hmem
  · have hpad : '\n' = ' ' := List.eq_of_mem_replicate hmem
    revert hpad
    decide
  · exact newline_notMem_of_isField (hcells cell hcell) hmem

theorem eq_of_read_write {α β γ : Type} {write : α → β} {read : β → Option γ} {value : α → γ}
    (h : ∀ a, read (write a) = some (value a)) {a b : α} (hsame : write a = write b) :
    value a = value b := by
  have ha := h a
  rw [hsame, h b] at ha
  exact (Option.some.inj ha).symm

/-- The gap sets apart what stands on its two sides. -/
def Divides (gap : List Char) : Prop :=
  ∀ text rest, fields (text ++ gap ++ rest) = fields text ++ fields gap ++ fields rest

theorem divides_singleton {c : Char} (h : isBlank c = true) : Divides [c] := by
  intro text rest
  have hgap : fields [c] = [] := fields_append_cons h [] []
  rw [fields_append_gap (isSpace_singleton h) (List.cons_ne_nil c []), hgap, List.append_nil]

theorem divides_between {c d : Char} (hc : isBlank c = true) (hd : isBlank d = true)
    (middle : List Char) : Divides (c :: middle ++ [d]) := by
  have hmiddle (rest : List Char) : fields (middle ++ d :: rest) = fields middle ++ fields rest :=
    fields_append_cons hd middle rest
  have hgap : fields (c :: middle ++ [d]) = fields middle := by
    have hsplit := fields_append_cons hc [] (middle ++ [d])
    rw [hmiddle] at hsplit
    exact hsplit.trans (List.append_nil _)
  intro text rest
  have hsplit := fields_append_cons hc text (middle ++ d :: rest)
  rw [hmiddle] at hsplit
  rw [hgap]
  simpa using hsplit

theorem Divides.fields_intercalate (h : Divides gap) (pieces : List (List Char)) :
    fields (gap.intercalate pieces) = (fields gap).intercalate (pieces.map fields) := by
  induction pieces with
  | nil => rfl
  | cons piece pieces ih =>
    cases pieces with
    | nil => simp [List.intercalate_singleton]
    | cons next pieces =>
      rw [List.intercalate_cons_cons, h, ih]
      simp only [List.map_cons, List.intercalate_cons_cons]

theorem fields_leftpad (width : Nat) (cell : List Char) :
    fields (cell.leftpad width ' ') = fields cell := by
  apply fields_space_append
  intro c hc
  rw [List.eq_of_mem_replicate hc]
  rfl

theorem Divides.fields_row (h : Divides gap) {cells : List (Nat × List Char)}
    (hcells : ∀ cell ∈ cells, IsField cell.2) :
    fields (row gap cells) = (fields gap).intercalate (cells.map fun cell => [cell.2]) := by
  rw [row, h.fields_intercalate, List.map_map]
  congr 1
  apply List.map_congr_left
  intro cell hcell
  rw [Function.comp_apply, fields_leftpad, fields_of_isField (hcells cell hcell)]

end Text
end PL0
