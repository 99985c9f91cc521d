import PL0.Proofs.Json.Document

/-!
This module contains that the indented form of a document is a JSON text of it: indentation is space
between lexemes.
-/

namespace PL0
namespace Json

mutual

/-- What is read from the indented form. -/
def document : Json → Document
  | bool value => .bool value
  | int value => .number (.ofInt value)
  | str value => .str value
  | arr items => .arr (itemDocuments items)
  | obj members => .obj (memberDocuments members)
termination_by structural json => json

def itemDocuments : List Json → List Document
  | [] => []
  | item :: items => item.document :: itemDocuments items
termination_by structural items => items

def memberDocuments : List (String × Json) → List (String × Document)
  | [] => []
  | member :: members => memberDocument member :: memberDocuments members
termination_by structural members => members

def memberDocument : String × Json → String × Document
  | (key, value) => (key, value.document)
termination_by structural member => member

end

theorem itemDocuments_eq_map (items : List Json) : itemDocuments items = items.map document := by
  induction items with
  | nil => rfl
  | cons item items ih => rw [itemDocuments, ih, List.map_cons]

theorem memberDocuments_eq_map (members : List (String × Json)) :
    memberDocuments members = members.map fun member => (member.1, member.2.document) := by
  induction members with
  | nil => rfl
  | cons member members ih =>
    cases member
    rw [memberDocuments, ih, List.map_cons]
    rfl

theorem document_arr (items : List Json) :
    (arr items).document = .arr (items.map document) := by
  rw [document, itemDocuments_eq_map]

theorem document_obj (members : List (String × Json)) :
    (obj members).document = .obj (members.map fun member => (member.1, member.2.document)) := by
  rw [document, memberDocuments_eq_map]

theorem prettyItems_eq_map (depth : Nat) (items : List Json) :
    prettyItems depth items = items.map (pretty depth) := by
  induction items with
  | nil => rfl
  | cons item items ih => rw [prettyItems, ih, List.map_cons]

theorem prettyMembers_eq_map (depth : Nat) (members : List (String × Json)) :
    prettyMembers depth members =
      members.map fun member => quote member.1 ++ ':' :: ' ' :: member.2.pretty depth := by
  induction members with
  | nil => rfl
  | cons member members ih =>
    cases member
    rw [prettyMembers, ih, List.map_cons]
    rfl

@[elab_as_elim]
theorem induction {motive : Json → Prop} (bool : ∀ value, motive (.bool value))
    (int : ∀ value, motive (.int value)) (str : ∀ value, motive (.str value))
    (arr : ∀ items, (∀ item ∈ items, motive item) → motive (.arr items))
    (obj : ∀ members, (∀ member ∈ members, motive member.2) → motive (.obj members)) :
    ∀ json, motive json
  | .bool value => bool value
  | .int value => int value
  | .str value => str value
  | .arr items => arr items fun item _ => induction bool int str arr obj item
  | .obj members => obj members fun member _ => induction bool int str arr obj member.2
termination_by json => sizeOf json
decreasing_by
  · have := List.sizeOf_lt_of_mem ‹item ∈ items›
    simp
    omega
  · have := List.sizeOf_lt_of_mem ‹member ∈ members›
    cases member
    simp at *
    omega

/-- The text can stand for the lexemes in front of any other ones. -/
def Renders (lexemes : List Lexeme) (text : List Char) : Prop :=
  ∀ ⦃more : List Lexeme⦄ ⦃rest : List Char⦄, Laid more rest → Laid (lexemes ++ more) (text ++ rest)

section

variable {text text' space : List Char} {lexemes lexemes' : List Lexeme} {lexeme : Lexeme}

theorem LexemeSpelling.renders (h : LexemeSpelling lexeme text) : Renders [lexeme] text := by
  intro more rest hrest
  exact .cons isSpace_nil h hrest

theorem Renders.append (h : Renders lexemes text) (h' : Renders lexemes' text') :
    Renders (lexemes ++ lexemes') (text ++ text') := by
  intro more rest hrest
  rw [List.append_assoc, List.append_assoc]
  exact h (h' hrest)

theorem Laid.space_append (hspace : IsSpace space) (h : Laid lexemes text) :
    Laid lexemes (space ++ text) := by
  have hjoin {lead : List Char} (hlead : IsSpace lead) : IsSpace (space ++ lead) := by
    intro c hc
    exact (List.mem_append.1 hc).elim (hspace c) (hlead c)
  cases h with
  | nil htext => exact .nil (hjoin htext)
  | cons hlead hpiece htext =>
    rw [← List.append_assoc]
    exact .cons (hjoin hlead) hpiece htext

theorem Renders.space_append (hspace : IsSpace space) (h : Renders lexemes text) :
    Renders lexemes (space ++ text) := by
  intro more rest hrest
  rw [List.append_assoc]
  exact (h hrest).space_append hspace

theorem Renders.intercalate {α : Type} {f : α → List Lexeme} {g : α → List Char} {items : List α}
    (h : ∀ item ∈ items, Renders (f item) (g item)) :
    Renders ([.comma].intercalate (items.map f)) ([','].intercalate (items.map g)) := by
  have hcomma : Renders [.comma] [','] := (LexemeSpelling.fixed Lexeme.letters?_comma).renders
  induction items with
  | nil =>
    intro more rest hrest
    exact hrest
  | cons item items ih =>
    obtain ⟨hitem, hitems⟩ := List.forall_mem_cons.1 h
    cases items with
    | nil =>
      simp only [List.map_cons, List.map_nil, List.intercalate_singleton]
      exact hitem
    | cons next items =>
      simp only [List.map_cons, List.intercalate_cons_cons]
      exact (hitem.append hcomma).append (ih hitems)

end

theorem isSpace_newline_margin (depth : Nat) : IsSpace ('\n' :: margin depth) := by
  intro c hc
  obtain rfl | hc := List.mem_cons.1 hc
  · rfl
  · rw [List.eq_of_mem_replicate hc]
    rfl

theorem renders_bracket {start close : Lexeme} {opening closing : Char}
    (hstart : start.letters? = some [opening]) (hclose : close.letters? = some [closing])
    {α : Type} {f : α → List Lexeme} {g : α → List Char} {items : List α}
    (h : ∀ item ∈ items, Renders (f item) (g item)) (depth : Nat) :
    Renders (start :: ([.comma].intercalate (items.map f) ++ [close]))
      (bracket opening closing depth (items.map g)) := by
  have hopening : Renders [start] [opening] := (LexemeSpelling.fixed hstart).renders
  have hclosing : Renders [close] [closing] := (LexemeSpelling.fixed hclose).renders
  cases items with
  | nil => exact hopening.append hclosing
  | cons item items =>
    have hitems := Renders.intercalate fun item hitem =>
      (h item hitem).space_append (isSpace_newline_margin (depth + 1))
    have hend := hclosing.space_append (isSpace_newline_margin depth)
    simpa [bracket, Function.comp_def] using hopening.append (hitems.append hend)

theorem renders_quote (s : String) : Renders [.str s] (quote s) :=
  (LexemeSpelling.str (stringSpelling_flatMap_escape s.toList)).renders

theorem renders_member {key : String} {document : Document} {text : List Char}
    (h : Renders document.lexemes text) :
    Renders (Document.memberLexeme (key, document)) (quote key ++ ':' :: ' ' :: text) := by
  have hcolon : Renders [.colon] [':'] := (LexemeSpelling.fixed Lexeme.letters?_colon).renders
  have hblank : IsSpace [' '] := by simp [IsSpace, isSpace]
  exact (renders_quote key).append (hcolon.append (h.space_append hblank))

theorem renders_pretty (json : Json) (depth : Nat) :
    Renders json.document.lexemes (json.pretty depth) := by
  induction json using Json.induction generalizing depth with
  | bool value =>
    cases value
    all_goals exact (LexemeSpelling.fixed rfl).renders
  | int value => exact (LexemeSpelling.number (numeralSpelling_ofInt value)).renders
  | str value => exact renders_quote value
  | arr items ih =>
    simp only [document_arr, Document.lexemes, pretty, prettyItems_eq_map,
      Document.itemLexemes_eq_map, List.map_map]
    exact renders_bracket rfl rfl (fun item hitem => ih item hitem (depth + 1)) depth
  | obj members ih =>
    simp only [document_obj, Document.lexemes, pretty, prettyMembers_eq_map,
      Document.memberLexemes_eq_map, List.map_map]
    exact renders_bracket rfl rfl (fun member hmember =>
      renders_member (ih member hmember (depth + 1))) depth

/-- The indented form of a document is a JSON text of it. -/
theorem isTextOf_pretty (json : Json) : json.document.IsTextOf (json.pretty 0) := by
  have h := renders_pretty json 0 (Laid.nil isSpace_nil)
  rwa [List.append_nil, List.append_nil] at h

end Json
end PL0
