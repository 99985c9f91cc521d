/-!
General facts about lists: where an element of a concatenation comes from, lists without a repeated
element, and lists put together with a gap between them.
-/

namespace List

variable {α β γ : Type}

theorem exists_of_append_cons_eq_append {before behind more rest : List α} {a : α}
    (h : before ++ a :: behind = more ++ rest) :
    (∃ middle, more = before ++ a :: middle) ∨
      ∃ last, before = more ++ last ∧ rest = last ++ a :: behind := by
  obtain ⟨middle, hmore, hrest⟩ | ⟨last, hbefore, hrest⟩ := append_eq_append_iff.1 h
  · cases middle with
    | nil =>
      rw [append_nil] at hmore
      exact .inr ⟨[], by rw [hmore, append_nil], hrest.symm⟩
    | cons b middle =>
      obtain ⟨rfl, _⟩ := cons.inj hrest
      exact .inl ⟨middle, hmore⟩
  · exact .inr ⟨last, hbefore, hrest⟩

theorem nodup_iff_notMem_take {l : List α} :
    l.Nodup ↔ ∀ i a, l[i]? = some a → a ∉ l.take i := by
  rw [nodup_iff_pairwise_ne, pairwise_iff_getElem]
  simp only [getElem?_eq_some_iff, mem_take_iff_getElem]
  constructor
  · rintro h i _ ⟨hi, rfl⟩ ⟨j, hj, hsame⟩
    exact h j i (by omega) hi (by omega) hsame
  · intro h i j hi hj hij hsame
    exact h j _ ⟨hj, rfl⟩ ⟨i, by omega, hsame⟩

theorem notMem_takeWhile_ne [DecidableEq α] (a : α) (l : List α) : a ∉ l.takeWhile (· ≠ a) := by
  intro hmem
  simpa using all_eq_true.1 all_takeWhile _ hmem

theorem mapM_map_eq_some {write : α → β} {read : β → Option γ} {value : α → γ} {items : List α}
    (h : ∀ item ∈ items, read (write item) = some (value item)) :
    (items.map write).mapM read = some (items.map value) := by
  induction items with
  | nil => rfl
  | cons item items ih =>
    obtain ⟨hitem, hitems⟩ := forall_mem_cons.1 h
    rw [map_cons, mapM_cons, hitem, ih hitems]
    rfl

variable {gap : List α} {pieces : List (List α)}

theorem notMem_intercalate {a : α} (hgap : a ∉ gap) (hpieces : ∀ piece ∈ pieces, a ∉ piece) :
    a ∉ gap.intercalate pieces := by
  induction pieces with
  | nil => exact not_mem_nil
  | cons piece pieces ih =>
    obtain ⟨hpiece, hrest⟩ := forall_mem_cons.1 hpieces
    cases pieces with
    | nil =>
      rw [intercalate_singleton]
      exact hpiece
    | cons next pieces =>
      rw [intercalate_cons_cons, mem_append, mem_append]
      rintro ((hmem | hmem) | hmem)
      · exact hpiece hmem
      · exact hgap hmem
      · exact ih hrest hmem

theorem exists_intercalate_cons (gap piece : List α) (pieces : List (List α)) :
    ∃ rest, gap.intercalate (piece :: pieces) = piece ++ rest ∧
      (gap.intercalate pieces).length ≤ rest.length := by
  cases pieces with
  | nil => exact ⟨[], by simp [intercalate_singleton], by simp⟩
  | cons next pieces =>
    refine ⟨gap ++ gap.intercalate (next :: pieces), ?_, ?_⟩
    · rw [intercalate_cons_cons, append_assoc]
    · simp

theorem length_le_length_intercalate (gap : List α) (h : ∀ piece ∈ pieces, piece ≠ []) :
    pieces.length ≤ (gap.intercalate pieces).length := by
  induction pieces with
  | nil => exact Nat.zero_le _
  | cons piece pieces ih =>
    obtain ⟨hpiece, hpieces⟩ := forall_mem_cons.1 h
    obtain ⟨rest, hrest, hle⟩ := exists_intercalate_cons gap piece pieces
    have hpos := length_pos_iff.2 hpiece
    have htail := ih hpieces
    rw [hrest, length_cons, length_append]
    omega

theorem length_le_of_mem_intercalate (gap : List α) {piece : List α} (h : piece ∈ pieces) :
    piece.length ≤ (gap.intercalate pieces).length := by
  induction pieces with
  | nil => cases h
  | cons first pieces ih =>
    obtain ⟨rest, hrest, hle⟩ := exists_intercalate_cons gap first pieces
    rw [hrest, length_append]
    obtain rfl | h := mem_cons.1 h
    · omega
    · have := ih h
      omega

end List
