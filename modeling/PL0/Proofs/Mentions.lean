import PL0.Error
import PL0.Proofs.Layout
import PL0.Util.List

/-!
This module contains the occurrences of names in a program, from left to right, and the fault of
each. A name must not be declared again, a name that is used must be declared, and one that is
assigned or read must be that of a variable. If there is no such fault the names of the program are
properly used.
-/

namespace PL0

/-- An occurrence of a name. -/
inductive Mention where
  | declared (name : String)
  | used (name : String)
  /-- The target of an assignment, or of reading. -/
  | assigned (name : String)
  deriving DecidableEq, Repr

namespace Mention

def name : Mention → String
  | declared name | used name | assigned name => name

@[simp]
theorem name_declared (name : String) : (declared name).name = name := rfl

@[simp]
theorem name_used (name : String) : (used name).name = name := rfl

@[simp]
theorem name_assigned (name : String) : (assigned name).name = name := rfl

end Mention

namespace Expression

def mentions {level : Level} (e : Expression level) : List Mention :=
  e.used.map Mention.used

end Expression

namespace Condition

def mentions (c : Condition) : List Mention :=
  c.used.map Mention.used

end Condition

namespace Statement

def mentions {extent : Extent} : Statement extent → List Mention
  | empty => []
  | assign name value => .assigned name :: value.mentions
  | read name => [.assigned name]
  | write value => value.mentions
  | compound body => body.mentions
  | ifThen condition body | whileDo condition body => condition.mentions ++ body.mentions
  | last statement => statement.mentions
  | followed first rest => first.mentions ++ rest.mentions

theorem used_mem_mentions_iff {extent : Extent} {statement : Statement extent} {name : String} :
    .used name ∈ statement.mentions ↔ name ∈ statement.used := by
  induction statement with
  | empty | assign | read | write => simp [mentions, used, Expression.mentions]
  | compound body ih => exact ih
  | ifThen condition body ih | whileDo condition body ih =>
    simp [mentions, used, Condition.mentions, ih]
  | last statement ih => exact ih
  | followed first rest ihf ihr => simp [mentions, used, ihf, ihr]

theorem assigned_mem_mentions_iff {extent : Extent} {statement : Statement extent} {name : String} :
    .assigned name ∈ statement.mentions ↔ name ∈ statement.assigned := by
  induction statement with
  | empty | assign | read | write => simp [mentions, assigned, Expression.mentions]
  | compound body ih => exact ih
  | ifThen condition body ih | whileDo condition body ih =>
    simp [mentions, assigned, Condition.mentions, ih]
  | last statement ih => exact ih
  | followed first rest ihf ihr => simp [mentions, assigned, ihf, ihr]

theorem declared_notMem_mentions {extent : Extent} (statement : Statement extent) (name : String) :
    .declared name ∉ statement.mentions := by
  induction statement with
  | empty | assign | read | write => simp [mentions, Expression.mentions]
  | compound body ih => exact ih
  | ifThen condition body ih | whileDo condition body ih =>
    simp [mentions, Condition.mentions, ih]
  | last statement ih => exact ih
  | followed first rest ihf ihr => simp [mentions, ihf, ihr]

end Statement

namespace Program

/-- The occurrences of names, from left to right. -/
def mentions (program : Program) : List Mention :=
  program.declarations.names.map Mention.declared ++ program.body.mentions

end Program

namespace Token

/-- The names that stand in the tokens. -/
def names (tokens : List Token) : List String :=
  (tokens.filter (·.kind == .ident)).map (·.lexeme)

@[simp]
theorem names_nil : names [] = [] := rfl

@[simp]
theorem names_append (tokens rest : List Token) :
    names (tokens ++ rest) = names tokens ++ names rest := by
  simp [names]

@[simp]
theorem names_ident (name : String) (rest : List Token) :
    names (.ident name :: rest) = name :: names rest := rfl

@[simp]
theorem names_plain {kind : Kind} (h : kind ≠ .ident) (rest : List Token) :
    names (.plain kind :: rest) = names rest := by
  simp [names, plain, h]

theorem names_map_bare (tokens : List Token) : names (tokens.map bare) = names tokens := by
  induction tokens with
  | nil => rfl
  | cons token rest ih =>
    unfold names at ih ⊢
    rw [List.map_cons, List.filter_cons, List.filter_cons, kind_bare]
    split
    · next h =>
      have hbare := bare_eq_ident_iff.2 ⟨eq_of_beq h, rfl⟩
      rw [List.map_cons, List.map_cons, ih, hbare]
      rfl
    · exact ih

end Token

open Token (names)

theorem Expression.map_name_mentions {level : Level} (e : Expression level) :
    e.mentions.map (·.name) = names e.spelling := by
  induction e with
  | number | ident => rfl
  | parens inner ih => simpa [spelling, mentions, used] using ih
  | single operand ih => exact ih
  | binary left operator right ihl ihr =>
    have hoperator : operator.kind ≠ .ident := by cases operator <;> decide
    rw [spelling, Token.names_append, Token.names_plain hoperator, ← ihl, ← ihr]
    simp [mentions, used]

theorem Condition.map_name_mentions (c : Condition) :
    c.mentions.map (·.name) = names c.spelling := by
  cases c with
  | even operand =>
    rw [spelling, Token.names_plain (by decide), ← operand.map_name_mentions]
    rfl
  | compare left comparison right =>
    have hcomparison : comparison.kind ≠ .ident := by cases comparison <;> decide
    rw [spelling, Token.names_append, Token.names_plain hcomparison, ← left.map_name_mentions,
      ← right.map_name_mentions]
    simp [mentions, used, Expression.mentions]

theorem Statement.map_name_mentions {extent : Extent} (statement : Statement extent) :
    statement.mentions.map (·.name) = names statement.spelling := by
  induction statement with
  | empty | read => rfl
  | assign name value => simp [mentions, spelling, value.map_name_mentions]
  | write value => simp [mentions, spelling, value.map_name_mentions]
  | compound body ih => simp [mentions, spelling, ih]
  | ifThen condition body ih | whileDo condition body ih =>
    simp [mentions, spelling, condition.map_name_mentions, ih]
  | last statement ih => exact ih
  | followed first rest ihf ihr => simp [mentions, spelling, ihf, ihr]

namespace Declarations

theorem names_partSpelling {α : Type} {keyword : Kind} (hkeyword : keyword ≠ .ident)
    {item : α → List Token} {name : α → String} (hitem : ∀ a, Token.names (item a) = [name a])
    (items : List α) : Token.names (partSpelling keyword item items) = items.map name := by
  have hmore : ∀ items, Token.names (moreSpelling item items) = items.map name := by
    intro items
    induction items with
    | nil => rfl
    | cons a rest ih => simp [moreSpelling, hitem, ih]
  cases items with
  | nil => rfl
  | cons a rest => simp [partSpelling, hkeyword, hitem, hmore]

theorem names_spelling (d : Declarations) : Token.names d.spelling = d.names := by
  have hconsts : Token.names (partSpelling .constSym constantSpelling d.consts) =
      d.consts.map (·.1) := names_partSpelling (by decide) (fun _ => rfl) d.consts
  have hvars : Token.names (partSpelling .varSym variableSpelling d.vars) = d.vars.map id :=
    names_partSpelling (by decide) (fun _ => rfl) d.vars
  rw [spelling, Token.names_append, hconsts, hvars, List.map_id, names]

end Declarations

theorem Program.map_name_mentions {program : Program} {tokens : List Token}
    (h : program.SpelledBy tokens) : program.mentions.map (·.name) = names tokens := by
  rw [← Token.names_map_bare, h, spelling, Token.names_append, Token.names_append,
    program.declarations.names_spelling, ← program.body.map_name_mentions, mentions]
  simp [Function.comp_def]

/-- What is wrong with an occurrence behind the given ones. -/
def Mention.fault? (d : Declarations) (earlier : List Mention) : Mention → Option Fault
  | declared name => if declared name ∈ earlier then some .duplicateSymbol else none
  | used name => if name ∈ d.names then none else some .undeclaredIdentifier
  | assigned name =>
    if name ∉ d.names then some .undeclaredIdentifier
    else if name ∈ d.consts.map (·.1) then some .assignmentToConstant
    else none

/-- What is wrong with the occurrence of a name, counted from the left. -/
def Program.faultAt (program : Program) (i : Nat) : Option Fault :=
  program.mentions[i]?.bind (Mention.fault? program.declarations (program.mentions.take i))

/-- What is wrong with an occurrence that means what the scope says. -/
def Scope.fault? (scope : Scope) : Mention → Option Fault
  | .declared _ => none
  | .used name => if (scope name).isSome then none else some .undeclaredIdentifier
  | .assigned name =>
    match scope name with
    | none => some .undeclaredIdentifier
    | some (.const _) => some .assignmentToConstant
    | some (.var _) => none

namespace Scope

variable {scope : Scope} {name : String}

theorem fault?_used_eq_none_iff : scope.fault? (.used name) = none ↔ (scope name).isSome := by
  rw [fault?]
  split <;> simp_all

theorem fault?_assigned_eq_none_iff :
    scope.fault? (.assigned name) = none ↔ ∃ location, scope name = some (.var location) := by
  rw [fault?]
  split <;> simp_all

end Scope

theorem Mention.fault?_eq {d : Declarations} (h : d.names.Nodup) {mention : Mention}
    (hmention : ∀ name, mention ≠ .declared name) (earlier : List Mention) :
    mention.fault? d earlier = d.scope.fault? mention := by
  cases mention with
  | declared name => exact absurd rfl (hmention name)
  | used name => simp only [fault?, Scope.fault?, Declarations.isSome_scope_iff]
  | assigned name =>
    have hnames := @Declarations.isSome_scope_iff d name
    rw [fault?, Scope.fault?]
    cases hscope : d.scope name with
    | none =>
      rw [if_pos]
      rw [← hnames, hscope]
      decide
    | some binding =>
      rw [hscope] at hnames
      rw [if_neg (not_not_intro (hnames.1 rfl))]
      cases binding with
      | const value =>
        have hvalue := (Declarations.scope_eq_const_iff h).1 hscope
        rw [if_pos (List.mem_map_of_mem hvalue)]
      | var location =>
        rw [if_neg]
        intro hmem
        obtain ⟨⟨_, value⟩, hvalue, rfl⟩ := List.mem_map.1 hmem
        rw [(Declarations.scope_eq_const_iff h).2 hvalue] at hscope
        cases hscope

namespace Statement

variable {extent : Extent} {statement : Statement extent} {scope : Scope}

theorem scoped_of_findSome? (h : statement.mentions.findSome? scope.fault? = none) :
    statement.Scoped scope := by
  rw [List.findSome?_eq_none_iff] at h
  constructor
  · intro name hname
    exact Scope.fault?_used_eq_none_iff.1 (h _ (used_mem_mentions_iff.2 hname))
  · intro name hname
    exact Scope.fault?_assigned_eq_none_iff.1 (h _ (assigned_mem_mentions_iff.2 hname))

end Statement

namespace Program

variable {program : Program}

theorem faultAt_of_lt {i : Nat} {name : String} (h : program.declarations.names[i]? = some name) :
    program.faultAt i =
      if name ∈ program.declarations.names.take i then some .duplicateSymbol else none := by
  obtain ⟨hi, _⟩ := List.getElem?_eq_some_iff.1 h
  have htake : program.mentions.take i =
      (program.declarations.names.take i).map Mention.declared := by
    rw [mentions, List.take_append_of_le_length (by simpa using Nat.le_of_lt hi), List.map_take]
  have hget : program.mentions[i]? = some (.declared name) := by
    rw [mentions, List.getElem?_append_left (by simpa using hi), List.getElem?_map, h]
    rfl
  have hmem : Mention.declared name ∈ (program.declarations.names.take i).map Mention.declared ↔
      name ∈ program.declarations.names.take i := by
    simp only [List.mem_map, Mention.declared.injEq, exists_eq_right]
  rw [faultAt, hget, htake, Option.bind_some, Mention.fault?]
  simp only [hmem]

theorem faultAt_add (h : program.declarations.names.Nodup) (k : Nat) :
    program.faultAt (program.declarations.names.length + k) =
      program.body.mentions[k]?.bind program.declarations.scope.fault? := by
  have hget : program.mentions[program.declarations.names.length + k]? =
      program.body.mentions[k]? := by
    rw [mentions, List.getElem?_append_right (by simp)]
    simp
  rw [faultAt, hget]
  cases hmention : program.body.mentions[k]? with
  | none => rfl
  | some mention =>
    apply Mention.fault?_eq h
    rintro name rfl
    exact program.body.declared_notMem_mentions name (List.mem_of_getElem? hmention)

theorem nodup_names_iff :
    program.declarations.names.Nodup ↔
      ∀ i < program.declarations.names.length, program.faultAt i = none := by
  rw [List.nodup_iff_notMem_take]
  constructor
  · intro h i hi
    rw [faultAt_of_lt (List.getElem?_eq_getElem hi), if_neg]
    exact h i _ (List.getElem?_eq_getElem hi)
  · intro h i name hname hmem
    have hfault := h i (List.getElem?_eq_some_iff.1 hname).1
    rw [faultAt_of_lt hname, if_pos hmem] at hfault
    cases hfault

theorem wellScoped_of_faultAt (h : ∀ i, program.faultAt i = none) : program.WellScoped := by
  have hdistinct : program.declarations.names.Nodup := nodup_names_iff.2 fun i _ => h i
  have hbody : ∀ mention ∈ program.body.mentions,
      program.declarations.scope.fault? mention = none := by
    intro mention hmem
    obtain ⟨k, hk⟩ := List.mem_iff_getElem?.1 hmem
    have hfault := h (program.declarations.names.length + k)
    rwa [faultAt_add hdistinct, hk] at hfault
  refine ⟨hdistinct, ?_, ?_⟩
  · intro name hname
    have hused := hbody _ (Statement.used_mem_mentions_iff.2 hname)
    rwa [Scope.fault?_used_eq_none_iff, Declarations.isSome_scope_iff] at hused
  · intro name hname
    have hassigned := hbody _ (Statement.assigned_mem_mentions_iff.2 hname)
    obtain ⟨location, hlocation⟩ := Scope.fault?_assigned_eq_none_iff.1 hassigned
    obtain ⟨i, hi, _⟩ := (Declarations.scope_eq_var_iff hdistinct).1 hlocation
    exact List.mem_of_getElem? hi

theorem leftmost_cases {i : Nat} {fault : Fault} (hfault : program.faultAt i = some fault)
    (hfirst : ∀ j < i, program.faultAt j = none) :
    (¬ program.declarations.names.Nodup ∧ fault = .duplicateSymbol) ∨
      (program.declarations.names.Nodup ∧
        program.body.mentions.findSome? program.declarations.scope.fault? = some fault) := by
  obtain hlt | hle := Nat.lt_or_ge i program.declarations.names.length
  · have hat := faultAt_of_lt (List.getElem?_eq_getElem hlt)
    rw [hfault] at hat
    left
    constructor
    · intro hnodup
      rw [nodup_names_iff.1 hnodup i hlt] at hfault
      cases hfault
    · split at hat
      · exact Option.some.inj hat
      · cases hat
  · have hnodup : program.declarations.names.Nodup :=
      nodup_names_iff.2 fun j hj => hfirst j (by omega)
    obtain ⟨k, rfl⟩ := Nat.exists_eq_add_of_le hle
    rw [faultAt_add hnodup] at hfault
    right
    refine ⟨hnodup, ?_⟩
    obtain ⟨mention, hmention, hat⟩ := Option.bind_eq_some_iff.1 hfault
    obtain ⟨hk, rfl⟩ := List.getElem?_eq_some_iff.1 hmention
    rw [List.findSome?_eq_some_iff]
    refine ⟨program.body.mentions.take k, _, program.body.mentions.drop (k + 1), ?_, hat, ?_⟩
    · rw [List.getElem_cons_drop, List.take_append_drop]
    · intro other hother
      obtain ⟨j, hj, rfl⟩ := List.mem_take_iff_getElem.1 hother
      have hbefore := hfirst (program.declarations.names.length + j) (by omega)
      rwa [faultAt_add hnodup, List.getElem?_eq_getElem (by omega)] at hbefore

end Program
end PL0
