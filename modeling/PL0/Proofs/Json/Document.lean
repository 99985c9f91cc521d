import PL0.Proofs.Json.Lexeme
import PL0.Util.List

/-!
This module contains what a JSON text is: a layout of the lexemes of a document. A reader for such
texts takes the lexemes off one by one, and from every text of a document it reads this document.
-/

namespace PL0
namespace Json

inductive Document where
  | null
  | bool (value : Bool)
  | number (value : Numeral)
  | str (value : String)
  | arr (items : List Document)
  | obj (members : List (String × Document))
  deriving Repr

namespace Document

mutual

/-- A document as lexemes. -/
def lexemes : Document → List Lexeme
  | null => [.null]
  | bool value => [.bool value]
  | number value => [.number value]
  | str value => [.str value]
  | arr items => .openArray :: [.comma].intercalate (itemLexemes items) ++ [.closeArray]
  | obj members => .openObject :: [.comma].intercalate (memberLexemes members) ++ [.closeObject]
termination_by structural document => document

def itemLexemes : List Document → List (List Lexeme)
  | [] => []
  | item :: items => item.lexemes :: itemLexemes items
termination_by structural items => items

def memberLexemes : List (String × Document) → List (List Lexeme)
  | [] => []
  | member :: members => memberLexeme member :: memberLexemes members
termination_by structural members => members

def memberLexeme : String × Document → List Lexeme
  | (key, value) => .str key :: .colon :: value.lexemes
termination_by structural member => member

end

/-- The text is a text of the document. -/
def IsTextOf (document : Document) (text : List Char) : Prop :=
  Laid document.lexemes text

theorem itemLexemes_eq_map (items : List Document) : itemLexemes items = items.map lexemes := by
  induction items with
  | nil => rfl
  | cons item items ih => rw [itemLexemes, ih, List.map_cons]

theorem memberLexemes_eq_map (members : List (String × Document)) :
    memberLexemes members = members.map memberLexeme := by
  induction members with
  | nil => rfl
  | cons member members ih => rw [memberLexemes, ih, List.map_cons]

@[elab_as_elim]
theorem induction {motive : Document → Prop} (null : motive .null)
    (bool : ∀ value, motive (.bool value)) (number : ∀ value, motive (.number value))
    (str : ∀ value, motive (.str value))
    (arr : ∀ items, (∀ item ∈ items, motive item) → motive (.arr items))
    (obj : ∀ members, (∀ member ∈ members, motive member.2) → motive (.obj members)) :
    ∀ document, motive document
  | .null => null
  | .bool value => bool value
  | .number value => number value
  | .str value => str value
  | .arr items => arr items fun item _ => induction null bool number str arr obj item
  | .obj members => obj members fun member _ => induction null bool number str arr obj member.2
termination_by document => sizeOf document
decreasing_by
  · have := List.sizeOf_lt_of_mem ‹item ∈ items›
    simp
    omega
  · have := List.sizeOf_lt_of_mem ‹member ∈ members›
    cases member
    simp at *
    omega

end Document

/-! ### Reading documents -/

section

variable {α : Type}

/-- Items with commas between them, up to the closing bracket. -/
def readSeparated (closing : Char) (readItem : List Char → Except Flaw (α × List Char)) :
    Nat → List Char → Except Flaw (List α × List Char)
  | 0, _ => .error .truncated
  | bound + 1, text => do
    let (item, text) ← readItem text
    match skipSpace text with
    | [] => throw .truncated
    | c :: text =>
      if c = closing then return ([item], text)
      else if c = ',' then
        (readSeparated closing readItem bound text).map fun r => (item :: r.1, r.2)
      else throw .malformed

/-- What stands behind an opening bracket. -/
def readBracketed (closing : Char) (readItem : List Char → Except Flaw (α × List Char))
    (text : List Char) : Except Flaw (List α × List Char) :=
  match skipSpace text with
  | [] => .error .truncated
  | c :: rest =>
    if c = closing then .ok ([], rest) else readSeparated closing readItem text.length text

/-- A key, a colon and a value. -/
def readMember (readItem : List Char → Except Flaw (α × List Char)) (text : List Char) :
    Except Flaw ((String × α) × List Char) :=
  match skipSpace text with
  | [] => .error .truncated
  | '"' :: text => do
    let (key, text) ← readString text
    match skipSpace text with
    | [] => throw .truncated
    | ':' :: text => do
      let (value, text) ← readItem text
      return ((String.ofList key, value), text)
    | _ => throw .malformed
  | _ => .error .malformed

end

/-- A value in which brackets are nested at most `depth` deep. -/
def readValue (depth : Nat) (text : List Char) : Except Flaw (Document × List Char) :=
  if (skipSpace text).head?.any startsNumber then
    (readNumeral (skipSpace text)).map fun r => (.number r.1, r.2)
  else
    match skipSpace text, depth with
    | [], _ => .error .truncated
    | 'n' :: text, _ => (readLetters ['u', 'l', 'l'] text).map fun text => (.null, text)
    | 't' :: text, _ => (readLetters ['r', 'u', 'e'] text).map fun text => (.bool true, text)
    | 'f' :: text, _ => (readLetters ['a', 'l', 's', 'e'] text).map fun text => (.bool false, text)
    | '"' :: text, _ => (readString text).map fun r => (.str (String.ofList r.1), r.2)
    | '[' :: text, depth + 1 =>
      (readBracketed ']' (readValue depth) text).map fun r => (.arr r.1, r.2)
    | '\x7b' :: text, depth + 1 =>
      (readBracketed '\x7d' (readMember (readValue depth)) text).map fun r => (.obj r.1, r.2)
    | _, _ => .error .malformed

/-- The document that is all of the text. -/
def read (text : List Char) : Except Flaw Document := do
  let (document, rest) ← readValue text.length text
  if (skipSpace rest).isEmpty then return document else throw .malformed

/-! ### What is read from a text of a document -/

section

variable {α : Type} {read readItem : List Char → Except Flaw (α × List Char)}
variable {text : List Char} {more : List Lexeme} {value : α}

/-- Reading takes the lexemes off the text and gives the value. -/
def Reads (read : List Char → Except Flaw (α × List Char)) (lexemes : List Lexeme) (value : α) :
    Prop :=
  ∀ ⦃more : List Lexeme⦄ ⦃text : List Char⦄, Delimited more → Laid (lexemes ++ more) text →
    ∃ rest, Laid more rest ∧ read text = .ok (value, rest)

/-- The closing brackets. -/
inductive Closes : Lexeme → Char → Prop where
  | array : Closes .closeArray ']'
  | object : Closes .closeObject '\x7d'

variable {close : Lexeme} {closing : Char}

theorem Closes.letters? (h : Closes close closing) : close.letters? = some [closing] := by
  cases h <;> rfl

theorem Closes.delimited (h : Closes close closing) (more : List Lexeme) :
    Delimited (close :: more) := by
  rintro lexeme hhead
  cases hhead
  cases h <;> rfl

theorem Closes.ne_comma (h : Closes close closing) : ',' ≠ closing := by
  cases h <;> decide

theorem delimited_comma (more : List Lexeme) : Delimited (.comma :: more) := by
  rintro lexeme hhead
  cases hhead
  rfl

theorem readSeparated_close {after rest : List Char} (hread : readItem text = .ok (value, after))
    (hskip : skipSpace after = closing :: rest) (bound : Nat) :
    readSeparated closing readItem (bound + 1) text = .ok ([value], rest) := by
  rw [readSeparated, hread]
  simp only [bind, Except.bind, hskip, if_pos]
  rfl

theorem readSeparated_comma {after rest : List Char} (hread : readItem text = .ok (value, after))
    (hskip : skipSpace after = ',' :: rest) (hclosing : ',' ≠ closing) (bound : Nat) :
    readSeparated closing readItem (bound + 1) text =
      (readSeparated closing readItem bound rest).map fun r => (value :: r.1, r.2) := by
  rw [readSeparated, hread]
  simp only [bind, Except.bind, hskip, if_neg hclosing, if_pos]

theorem readSeparated_of_laid (hclose : Closes close closing) {items : List (List Lexeme × α)}
    (hitems : ∀ item ∈ items, Reads readItem item.1 item.2) (hne : items ≠ []) {bound : Nat}
    (hbound : items.length ≤ bound)
    (h : Laid ([.comma].intercalate (items.map Prod.fst) ++ close :: more) text) :
    ∃ rest, Laid more rest ∧
      readSeparated closing readItem bound text = .ok (items.map Prod.snd, rest) := by
  induction items generalizing bound text with
  | nil => exact absurd rfl hne
  | cons item items ih =>
    obtain ⟨hitem, hrest⟩ := List.forall_mem_cons.1 hitems
    cases bound with
    | zero => cases hbound
    | succ bound =>
      cases items with
      | nil =>
        rw [List.map_singleton, List.intercalate_singleton] at h
        obtain ⟨after, hafter, hread⟩ := hitem (hclose.delimited more) h
        obtain ⟨rest, hlaid, hskip⟩ := hafter.exists_mark hclose.letters?
        exact ⟨rest, hlaid, readSeparated_close hread hskip bound⟩
      | cons next items =>
        rw [List.map_cons, List.map_cons, List.intercalate_cons_cons, List.append_assoc,
          List.append_assoc] at h
        obtain ⟨after, hafter, hread⟩ := hitem (delimited_comma _) h
        obtain ⟨following, hfollowing, hskip⟩ := hafter.exists_mark Lexeme.letters?_comma
        obtain ⟨rest, hlaid, hreads⟩ :=
          ih hrest (List.cons_ne_nil _ _) (Nat.le_of_succ_le_succ hbound) hfollowing
        refine ⟨rest, hlaid, ?_⟩
        rw [readSeparated_comma hread hskip hclose.ne_comma, hreads]
        rfl

theorem Laid.exists_opening {lexemes : List Lexeme} (h : Laid (lexemes ++ more) text)
    (hopening : ∃ lexeme ∈ lexemes.head?, lexeme.isOpening = true) :
    ∃ c rest, skipSpace text = c :: rest ∧ c ≠ ']' ∧ c ≠ '\x7d' := by
  obtain ⟨lexeme, hhead, hopening⟩ := hopening
  obtain ⟨tail, rfl⟩ := List.head?_eq_some_iff.1 hhead
  obtain ⟨piece, rest, hpiece, _, hskip⟩ := h.exists_skipSpace
  obtain ⟨c, piece, rfl, _, hne⟩ := hpiece.exists_cons
  exact ⟨c, _, hskip, hne hopening⟩

theorem readBracketed_of_laid (hclose : Closes close closing) {items : List (List Lexeme × α)}
    (hitems : ∀ item ∈ items, Reads readItem item.1 item.2)
    (hopening : ∀ item ∈ items, ∃ lexeme ∈ item.1.head?, lexeme.isOpening = true)
    (h : Laid ([.comma].intercalate (items.map Prod.fst) ++ close :: more) text) :
    ∃ rest, Laid more rest ∧
      readBracketed closing readItem text = .ok (items.map Prod.snd, rest) := by
  cases items with
  | nil =>
    obtain ⟨rest, hlaid, hskip⟩ := Laid.exists_mark h hclose.letters?
    refine ⟨rest, hlaid, ?_⟩
    rw [readBracketed, hskip]
    exact if_pos rfl
  | cons item items =>
    have hbound : (item :: items).length ≤ text.length := by
      have hne : ∀ piece ∈ (item :: items).map Prod.fst, piece ≠ [] := by
        rw [List.forall_mem_map]
        rintro item hitem hnil
        obtain ⟨lexeme, hhead, _⟩ := hopening item hitem
        rw [hnil] at hhead
        cases hhead
      have hlength := List.length_le_length_intercalate [.comma] hne
      have hlaid := h.length_le
      rw [List.length_map] at hlength
      rw [List.length_append] at hlaid
      omega
    obtain ⟨rest, hlaid, hread⟩ :=
      readSeparated_of_laid hclose hitems (List.cons_ne_nil _ _) hbound h
    refine ⟨rest, hlaid, ?_⟩
    obtain ⟨c, after, hskip, hbracket, hbrace⟩ : ∃ c rest, skipSpace text = c :: rest ∧
        c ≠ ']' ∧ c ≠ '\x7d' := by
      obtain ⟨tail, htail, _⟩ := List.exists_intercalate_cons [.comma] item.1 (items.map Prod.fst)
      rw [List.map_cons, htail, List.append_assoc] at h
      exact h.exists_opening (hopening item List.mem_cons_self)
    have hclosing : c ≠ closing := by
      cases hclose with
      | array => exact hbracket
      | object => exact hbrace
    rw [readBracketed, hskip]
    exact (if_neg hclosing).trans hread

theorem Reads.member {lexemes : List Lexeme} (h : Reads readItem lexemes value) (key : String) :
    Reads (readMember readItem) (.str key :: .colon :: lexemes) (key, value) := by
  intro more text hmore hlaid
  obtain ⟨body, after, hafter, hskip, hkey⟩ := hlaid.exists_str
  obtain ⟨following, hfollowing, hskip'⟩ := hafter.exists_mark Lexeme.letters?_colon
  obtain ⟨rest, hrest, hread⟩ := h hmore hfollowing
  refine ⟨rest, hrest, ?_⟩
  rw [readMember, hskip]
  simp only [bind, Except.bind, hkey, hskip', hread, String.ofList_toList]
  rfl

end

namespace Document

theorem exists_isOpening (document : Document) :
    ∃ lexeme ∈ document.lexemes.head?, lexeme.isOpening = true := by
  cases document <;> exact ⟨_, rfl, rfl⟩

theorem memberLexeme_eq (member : String × Document) :
    memberLexeme member = .str member.1 :: .colon :: member.2.lexemes := by
  cases member
  rfl

theorem reads_arr {items : List Document} {depth : Nat}
    (hitems : ∀ item ∈ items, Reads (readValue depth) item.lexemes item) :
    Reads (readValue (depth + 1)) (arr items).lexemes (arr items) := by
  intro more text _ hlaid
  rw [lexemes, itemLexemes_eq_map, List.append_assoc] at hlaid
  obtain ⟨after, hafter, hskip⟩ := Laid.exists_mark hlaid rfl
  have hread := @readBracketed_of_laid _ (readValue depth) after more _ _ .array
    (items.map fun item => (item.lexemes, item))
  simp only [List.forall_mem_map, List.map_map, Function.comp_def, List.map_id'] at hread
  obtain ⟨rest, hrest, hread⟩ := hread hitems (fun item _ => item.exists_isOpening) hafter
  refine ⟨rest, hrest, ?_⟩
  rw [readValue.eq_def, hskip]
  simp [startsNumber, hread, Except.map]

theorem reads_obj {members : List (String × Document)} {depth : Nat}
    (hmembers : ∀ member ∈ members, Reads (readValue depth) member.2.lexemes member.2) :
    Reads (readValue (depth + 1)) (obj members).lexemes (obj members) := by
  intro more text _ hlaid
  rw [lexemes, memberLexemes_eq_map, List.append_assoc] at hlaid
  obtain ⟨after, hafter, hskip⟩ := Laid.exists_mark hlaid rfl
  have hread := @readBracketed_of_laid _ (readMember (readValue depth)) after more _ _ .object
    (members.map fun member => (memberLexeme member, member))
  simp only [List.forall_mem_map, List.map_map, Function.comp_def, List.map_id'] at hread
  obtain ⟨rest, hrest, hread⟩ : ∃ rest, Laid more rest ∧
      readBracketed '\x7d' (readMember (readValue depth)) after = .ok (members, rest) := by
    apply hread
    · intro member hmember
      rw [memberLexeme_eq]
      exact (hmembers member hmember).member member.1
    · intro member _
      rw [memberLexeme_eq]
      exact ⟨_, rfl, rfl⟩
    · exact hafter
  refine ⟨rest, hrest, ?_⟩
  rw [readValue.eq_def, hskip]
  simp [startsNumber, hread, Except.map]

theorem reads (document : Document) {depth : Nat} (hdepth : document.lexemes.length ≤ depth) :
    Reads (readValue depth) document.lexemes document := by
  induction document using Document.induction generalizing depth with
  | null =>
    intro more text _ hlaid
    obtain ⟨rest, hrest, hskip⟩ := Laid.exists_letters hlaid rfl
    refine ⟨rest, hrest, ?_⟩
    rw [readValue.eq_def, hskip]
    rfl
  | bool value =>
    intro more text _ hlaid
    cases value with
    | true =>
      obtain ⟨rest, hrest, hskip⟩ := Laid.exists_letters hlaid rfl
      refine ⟨rest, hrest, ?_⟩
      rw [readValue.eq_def, hskip]
      rfl
    | false =>
      obtain ⟨rest, hrest, hskip⟩ := Laid.exists_letters hlaid rfl
      refine ⟨rest, hrest, ?_⟩
      rw [readValue.eq_def, hskip]
      rfl
  | number value =>
    intro more text hmore hlaid
    obtain ⟨rest, hrest, hstart, hread⟩ := Laid.exists_number hlaid hmore
    refine ⟨rest, hrest, ?_⟩
    rw [readValue.eq_def, if_pos hstart, hread]
    rfl
  | str value =>
    intro more text _ hlaid
    obtain ⟨body, rest, hrest, hskip, hread⟩ := Laid.exists_str hlaid
    refine ⟨rest, hrest, ?_⟩
    rw [readValue.eq_def, hskip]
    simp [startsNumber, hread, Except.map]
  | arr items ih =>
    rw [lexemes, itemLexemes_eq_map] at hdepth
    simp only [List.cons_append, List.length_cons, List.length_append] at hdepth
    cases depth with
    | zero => omega
    | succ depth =>
      apply reads_arr
      intro item hitem
      apply ih item hitem
      have hlength := List.length_le_of_mem_intercalate [Lexeme.comma]
        (List.mem_map_of_mem (f := lexemes) hitem)
      omega
  | obj members ih =>
    rw [lexemes, memberLexemes_eq_map] at hdepth
    simp only [List.cons_append, List.length_cons, List.length_append] at hdepth
    cases depth with
    | zero => omega
    | succ depth =>
      apply reads_obj
      intro member hmember
      apply ih member hmember
      have hlength := List.length_le_of_mem_intercalate [Lexeme.comma]
        (List.mem_map_of_mem (f := memberLexeme) hmember)
      rw [memberLexeme_eq, List.length_cons, List.length_cons] at hlength
      omega

/-- Every text of a document is read as this document. -/
theorem read_of_isTextOf {document : Document} {text : List Char} (h : document.IsTextOf text) :
    read text = .ok document := by
  have hlaid : Laid (document.lexemes ++ []) text := by
    rw [List.append_nil]
    exact h
  have hdelimited : Delimited [] := by
    intro lexeme hhead
    cases hhead
  obtain ⟨rest, hrest, hread⟩ := document.reads h.length_le hdelimited hlaid
  simp only [read, hread, bind, Except.bind, hrest.skipSpace_eq_nil]
  rfl

end Document

end Json
end PL0
