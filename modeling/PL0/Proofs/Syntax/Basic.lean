import PL0.Instruction
import PL0.Token.Basic

/-!
This module contains the syntax trees of programs and their spelling, the tokens that a tree stands
for. Precedence and associativity are part of the trees: an operand of a product is a factor, an
operand of a sum is a term, and both chains grow to the left. Parentheses stay in the tree, so that
a tree has one spelling.
-/

namespace PL0

namespace Token

/-- A token without what its kind leaves unused. -/
def bare (token : Token) : Token :=
  match token.kind with
  | .ident => .ident token.lexeme
  | .number => .number token.value
  | kind => .plain kind

@[simp]
theorem kind_bare (token : Token) : token.bare.kind = token.kind := by
  unfold bare
  split <;> simp_all [ident, number, plain]

theorem bare_eq_ident_iff {token : Token} {name : String} :
    token.bare = .ident name ↔ token.kind = .ident ∧ token.lexeme = name := by
  unfold bare
  split <;> simp_all [ident, number, plain]

theorem bare_eq_number_iff {token : Token} {value : Word} :
    token.bare = .number value ↔ token.kind = .number ∧ token.value = value := by
  unfold bare
  split <;> simp_all [ident, number, plain]

theorem bare_eq_plain_iff {token : Token} {kind : Kind} (hident : kind ≠ .ident)
    (hnumber : kind ≠ .number) : token.bare = .plain kind ↔ token.kind = kind := by
  unfold bare
  split
  · next hkind => simp [hkind, ident, plain, hident.symm]
  · next hkind => simp [hkind, number, plain, hnumber.symm]
  · simp [plain]

theorem ident_inj {name name' : String} : ident name = ident name' ↔ name = name' := by
  simp [ident]

/-- The kind of the token that is seen where the given tokens start. -/
def firstKind (tokens : List Token) : Kind :=
  (tokens.headD endOfInput).kind

@[simp]
theorem firstKind_cons (token : Token) (rest : List Token) :
    firstKind (token :: rest) = token.kind := rfl

@[simp]
theorem firstKind_map_bare (tokens : List Token) :
    firstKind (tokens.map bare) = firstKind tokens := by
  cases tokens <;> simp [firstKind]

def throughPeriod : List Token → List Token
  | [] => []
  | token :: rest => if token.kind = .period then [token] else token :: throughPeriod rest

theorem throughPeriod_append {tokens rest : List Token} {dot : Token}
    (htokens : ∀ token ∈ tokens, token.kind ≠ .period) (hdot : dot.kind = .period) :
    throughPeriod (tokens ++ dot :: rest) = tokens ++ [dot] := by
  induction tokens with
  | nil => simp [throughPeriod, hdot]
  | cons token tokens ih =>
    simp only [List.mem_cons, forall_eq_or_imp] at htokens
    rw [List.cons_append, throughPeriod, if_neg htokens.1, ih htokens.2, List.cons_append]

theorem map_bare_throughPeriod (tokens : List Token) :
    (throughPeriod tokens).map bare = throughPeriod (tokens.map bare) := by
  induction tokens with
  | nil => rfl
  | cons token tokens ih =>
    rw [List.map_cons, throughPeriod, throughPeriod, kind_bare, apply_ite (List.map bare), ← ih]
    rfl

theorem throughPeriod_isPrefix (tokens : List Token) : throughPeriod tokens <+: tokens := by
  induction tokens with
  | nil => exact List.prefix_rfl
  | cons token tokens ih =>
    unfold throughPeriod
    split
    · exact List.prefix_append [token] tokens
    · exact List.prefix_cons_inj token |>.2 ih

end Token

/-- Where a binary operator stands: between the terms of a sum or the factors of a product. -/
inductive Tier where
  | sum | product
  deriving DecidableEq, Repr

inductive Operator : Tier → Type where
  | plus : Operator .sum
  | minus : Operator .sum
  | times : Operator .product
  | slash : Operator .product
  deriving DecidableEq, Repr

namespace Operator

def kind {tier : Tier} : Operator tier → Kind
  | plus => .plus
  | minus => .minus
  | times => .times
  | slash => .slash

def operation {tier : Tier} : Operator tier → Operation
  | plus => .add
  | minus => .sub
  | times => .mul
  | slash => .div

theorem kind_injective {tier : Tier} {a b : Operator tier} (h : a.kind = b.kind) : a = b := by
  cases a <;> cases b <;> first | rfl | cases h

theorem operation_ne_even {tier : Tier} (operator : Operator tier) :
    operator.operation ≠ .even := by
  cases operator <;> decide

end Operator

inductive Comparison where
  | eql | neq | lss | leq | gtr | geq
  deriving DecidableEq, Repr

namespace Comparison

def kind : Comparison → Kind
  | eql => .eql
  | neq => .neq
  | lss => .lss
  | leq => .leq
  | gtr => .gtr
  | geq => .geq

def operation : Comparison → Operation
  | eql => .eql
  | neq => .neq
  | lss => .lss
  | leq => .leq
  | gtr => .gtr
  | geq => .geq

theorem kind_injective {a b : Comparison} (h : a.kind = b.kind) : a = b := by
  cases a <;> cases b <;> first | rfl | cases h

theorem operation_ne_even (comparison : Comparison) : comparison.operation ≠ .even := by
  cases comparison <;> decide

end Comparison

inductive Level where
  | factor
  | chain (tier : Tier)
  deriving DecidableEq, Repr

abbrev Level.term : Level := .chain .product

abbrev Level.expression : Level := .chain .sum

def Tier.operand : Tier → Level
  | sum => .term
  | product => .factor

inductive Expression : Level → Type where
  | number (value : Word) : Expression .factor
  | ident (name : String) : Expression .factor
  | parens (inner : Expression .expression) : Expression .factor
  | single {tier : Tier} (operand : Expression tier.operand) : Expression (.chain tier)
  | binary {tier : Tier} (left : Expression (.chain tier)) (operator : Operator tier)
      (right : Expression tier.operand) : Expression (.chain tier)

namespace Expression

def spelling {level : Level} : Expression level → List Token
  | number value => [.number value]
  | ident name => [.ident name]
  | parens inner => .plain .lparen :: (inner.spelling ++ [.plain .rparen])
  | single operand => operand.spelling
  | binary left operator right => left.spelling ++ .plain operator.kind :: right.spelling

/-- The names that are used as factors, in the order of their occurrences. -/
def used {level : Level} : Expression level → List String
  | number _ => []
  | ident name => [name]
  | parens inner => inner.used
  | single operand => operand.used
  | binary left _ right => left.used ++ right.used

theorem period_notMem_spelling {level : Level} (e : Expression level) :
    ∀ token ∈ e.spelling, token.kind ≠ .period := by
  induction e with
  | number => simp [spelling, Token.number]
  | ident => simp [spelling, Token.ident]
  | parens inner ih => simpa [spelling, Token.plain, or_imp, forall_and] using ih
  | single operand ih => exact ih
  | binary left operator right ihl ihr =>
    have hoperator : operator.kind ≠ .period := by cases operator <;> simp [Operator.kind]
    simp only [spelling, List.mem_append, List.mem_cons, or_imp, forall_and]
    exact ⟨ihl, by simpa [Token.plain] using hoperator, ihr⟩

end Expression

inductive Condition where
  | even (operand : Expression .expression)
  | compare (left : Expression .expression) (comparison : Comparison)
      (right : Expression .expression)

namespace Condition

def spelling : Condition → List Token
  | even operand => .plain .evenSym :: operand.spelling
  | compare left comparison right => left.spelling ++ .plain comparison.kind :: right.spelling

def used : Condition → List String
  | even operand => operand.used
  | compare left _ right => left.used ++ right.used

theorem period_notMem_spelling (c : Condition) :
    ∀ token ∈ c.spelling, token.kind ≠ .period := by
  cases c with
  | even operand =>
    simpa [spelling, Token.plain] using operand.period_notMem_spelling
  | compare left comparison right =>
    have hcomparison : comparison.kind ≠ .period := by cases comparison <;> simp [Comparison.kind]
    simp only [spelling, List.mem_append, List.mem_cons, or_imp, forall_and]
    exact ⟨left.period_notMem_spelling, by simpa [Token.plain] using hcomparison,
      right.period_notMem_spelling⟩

end Condition

/-- How much a statement tree holds: one statement, or the statements between `begin` and `end`. -/
inductive Extent where
  | one | list
  deriving DecidableEq, Repr

inductive Statement : Extent → Type where
  | empty : Statement .one
  | assign (name : String) (value : Expression .expression) : Statement .one
  | read (name : String) : Statement .one
  | write (value : Expression .expression) : Statement .one
  | compound (body : Statement .list) : Statement .one
  | ifThen (condition : Condition) (body : Statement .one) : Statement .one
  | whileDo (condition : Condition) (body : Statement .one) : Statement .one
  | last (statement : Statement .one) : Statement .list
  | followed (first : Statement .one) (rest : Statement .list) : Statement .list

namespace Statement

def spelling {extent : Extent} : Statement extent → List Token
  | empty => []
  | assign name value => .ident name :: .plain .becomes :: value.spelling
  | read name => [.plain .readSym, .ident name]
  | write value => .plain .writeSym :: value.spelling
  | compound body => .plain .beginSym :: (body.spelling ++ [.plain .endSym])
  | ifThen condition body =>
    .plain .ifSym ::
      (condition.spelling ++ .plain .thenSym :: (body.spelling ++ [.plain .fiSym]))
  | whileDo condition body =>
    .plain .whileSym :: (condition.spelling ++ .plain .doSym :: body.spelling)
  | last statement => statement.spelling
  | followed first rest => first.spelling ++ .plain .semicolon :: rest.spelling

/-- The names that are used as factors, in the order of their occurrences. -/
def used {extent : Extent} : Statement extent → List String
  | empty | read _ => []
  | assign _ value | write value => value.used
  | compound body => body.used
  | ifThen condition body | whileDo condition body => condition.used ++ body.used
  | last statement => statement.used
  | followed first rest => first.used ++ rest.used

/-- The names that are assigned or read, in the order of their occurrences. -/
def assigned {extent : Extent} : Statement extent → List String
  | empty | write _ => []
  | assign name _ | read name => [name]
  | compound body => body.assigned
  | ifThen _ body | whileDo _ body => body.assigned
  | last statement => statement.assigned
  | followed first rest => first.assigned ++ rest.assigned

theorem period_notMem_spelling {extent : Extent} (s : Statement extent) :
    ∀ token ∈ s.spelling, token.kind ≠ .period := by
  induction s with
  | empty => simp [spelling]
  | assign name value =>
    simpa [spelling, Token.plain, Token.ident] using value.period_notMem_spelling
  | read => simp [spelling, Token.plain, Token.ident]
  | write value => simpa [spelling, Token.plain] using value.period_notMem_spelling
  | compound body ih => simpa [spelling, Token.plain, or_imp, forall_and] using ih
  | ifThen condition body ih | whileDo condition body ih =>
    simpa [spelling, Token.plain, or_imp, forall_and] using
      And.intro condition.period_notMem_spelling ih
  | last statement ih => exact ih
  | followed first rest ihf ihr =>
    simpa [spelling, Token.plain, or_imp, forall_and] using And.intro ihf ihr

end Statement

structure Declarations where
  consts : List (String × Word)
  vars : List String
  deriving DecidableEq, Repr

namespace Declarations

def constantSpelling (constant : String × Word) : List Token :=
  [.ident constant.1, .plain .eql, .number constant.2]

def variableSpelling (name : String) : List Token :=
  [.ident name]

def moreSpelling {α : Type} (item : α → List Token) : List α → List Token
  | [] => [.plain .semicolon]
  | a :: rest => .plain .comma :: (item a ++ moreSpelling item rest)

def partSpelling {α : Type} (keyword : Kind) (item : α → List Token) : List α → List Token
  | [] => []
  | a :: rest => .plain keyword :: (item a ++ moreSpelling item rest)

def spelling (d : Declarations) : List Token :=
  partSpelling .constSym constantSpelling d.consts ++
    partSpelling .varSym variableSpelling d.vars

theorem period_notMem_moreSpelling {α : Type} {item : α → List Token}
    (hitem : ∀ a, ∀ token ∈ item a, token.kind ≠ .period) (items : List α) :
    ∀ token ∈ moreSpelling item items, token.kind ≠ .period := by
  induction items with
  | nil => simp [moreSpelling, Token.plain]
  | cons a rest ih =>
    simpa [moreSpelling, Token.plain, or_imp, forall_and] using And.intro (hitem a) ih

theorem period_notMem_partSpelling {α : Type} {keyword : Kind} {item : α → List Token}
    (hkeyword : keyword ≠ .period) (hitem : ∀ a, ∀ token ∈ item a, token.kind ≠ .period)
    (items : List α) : ∀ token ∈ partSpelling keyword item items, token.kind ≠ .period := by
  cases items with
  | nil => simp [partSpelling]
  | cons a rest =>
    simp only [partSpelling, List.mem_cons, List.mem_append, or_imp, forall_and, forall_eq]
    exact ⟨hkeyword, hitem a, period_notMem_moreSpelling hitem rest⟩

theorem period_notMem_spelling (d : Declarations) :
    ∀ token ∈ d.spelling, token.kind ≠ .period := by
  simp only [spelling, List.mem_append, or_imp, forall_and]
  constructor
  · apply period_notMem_partSpelling (by decide)
    simp [constantSpelling, Token.ident, Token.plain, Token.number]
  · apply period_notMem_partSpelling (by decide)
    simp [variableSpelling, Token.ident]

end Declarations

structure Program where
  declarations : Declarations
  body : Statement .one

namespace Program

def spelling (program : Program) : List Token :=
  program.declarations.spelling ++ (program.body.spelling ++ [.plain .period])

/-- The tokens are those of the program; what a token carries beyond its kind does not matter unless
the kind uses it. -/
def SpelledBy (program : Program) (tokens : List Token) : Prop :=
  tokens.map Token.bare = program.spelling

instance (program : Program) (tokens : List Token) : Decidable (program.SpelledBy tokens) :=
  inferInstanceAs (Decidable (_ = _))

theorem period_notMem_spelling (d : Declarations) (s : Statement .one) :
    ∀ token ∈ d.spelling ++ s.spelling, token.kind ≠ .period := by
  simp only [List.mem_append, or_imp, forall_and]
  exact ⟨d.period_notMem_spelling, s.period_notMem_spelling⟩

theorem spelledBy_throughPeriod_iff {program : Program} {tokens : List Token} :
    program.SpelledBy (Token.throughPeriod tokens) ↔
      ∃ rest, Token.firstKind rest = .period ∧ tokens.map Token.bare =
        program.declarations.spelling ++ (program.body.spelling ++ rest.map Token.bare) := by
  have hperiod : (Token.plain .period).bare = .plain .period := rfl
  constructor
  · intro h
    obtain ⟨rest, hrest⟩ := Token.throughPeriod_isPrefix tokens
    refine ⟨.plain .period :: rest, rfl, ?_⟩
    rw [← hrest, List.map_append, h, spelling, List.map_cons, hperiod]
    simp
  · rintro ⟨_ | ⟨dot, rest⟩, hrest, h⟩
    · cases hrest
    · have hdot : dot.bare = .plain .period :=
        (Token.bare_eq_plain_iff (by decide) (by decide)).2 hrest
      rw [SpelledBy, Token.map_bare_throughPeriod, h, ← List.append_assoc, List.map_cons, hdot,
        Token.throughPeriod_append (period_notMem_spelling _ _) rfl, spelling, List.append_assoc]

end Program
end PL0
