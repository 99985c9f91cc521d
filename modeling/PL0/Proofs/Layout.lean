import PL0.Limits.Basic
import PL0.Proofs.Scope
import PL0.Target.Basic

/-!
This module contains the code of a syntax tree as it is laid out when all sizes are known in
advance: expressions in postfix order, and a branch with the address behind the code that it skips.
A tree has at most as many instructions as its spelling has tokens, so that the addresses in the
code of a short enough program are exact.
-/

namespace PL0

def Instruction.branch (target : Word) : Instruction := ⟨.jpc, 0, target⟩

def Binding.fetch : Binding → Instruction
  | const value => .literal value
  | var location => .load location

/-- The instructions stand in the code, the first of them at the given index. -/
def CodeAt (code : List Instruction) : Nat → List Instruction → Prop
  | _, [] => True
  | i, instruction :: rest => code[i]? = some instruction ∧ CodeAt code (i + 1) rest

namespace CodeAt

theorem append_iff {code : List Instruction} {i : Nat} {instructions rest : List Instruction} :
    CodeAt code i (instructions ++ rest) ↔
      CodeAt code i instructions ∧ CodeAt code (i + instructions.length) rest := by
  induction instructions generalizing i with
  | nil => simp [CodeAt]
  | cons instruction instructions ih =>
    rw [List.cons_append, CodeAt, CodeAt, ih, and_assoc, List.length_cons, Nat.add_assoc,
      Nat.add_comm 1]

theorem of_append (before code : List Instruction) :
    CodeAt (before ++ code) before.length code := by
  induction code generalizing before with
  | nil => trivial
  | cons instruction rest ih =>
    refine ⟨by simp, ?_⟩
    have hrest := ih (before ++ [instruction])
    rw [List.append_assoc, List.length_append] at hrest
    exact hrest

theorem length_le {code : List Instruction} {i : Nat} {instructions : List Instruction}
    (h : CodeAt code i instructions) (hne : instructions ≠ []) :
    i + instructions.length ≤ code.length := by
  induction instructions generalizing i with
  | nil => exact absurd rfl hne
  | cons instruction rest ih =>
    have hi := (List.getElem?_eq_some_iff.1 h.1).1
    rw [List.length_cons]
    cases rest with
    | nil => exact hi
    | cons next rest =>
      have hrest := ih h.2 (List.cons_ne_nil next rest)
      omega

theorem refl (code : List Instruction) : CodeAt code 0 code := of_append [] code

end CodeAt

namespace Expression

def Scoped {level : Level} (scope : Scope) (e : Expression level) : Prop :=
  ∀ name ∈ e.used, (scope name).isSome

def size {level : Level} : Expression level → Nat
  | number _ | ident _ => 1
  | parens inner => inner.size
  | single operand => operand.size
  | binary left _ right => left.size + right.size + 1

def code {level : Level} (scope : Scope) : Expression level → List Instruction
  | number value => [.literal value]
  | ident name => ((scope name).map Binding.fetch).toList
  | parens inner => inner.code scope
  | single operand => operand.code scope
  | binary left operator right =>
    left.code scope ++ (right.code scope ++ [.operate operator.operation])

@[simp]
theorem scoped_number (scope : Scope) (value : Word) : (number value).Scoped scope := by
  simp [Scoped, used]

@[simp]
theorem scoped_ident_iff {scope : Scope} {name : String} :
    (ident name).Scoped scope ↔ ∃ binding, scope name = some binding := by
  simp [Scoped, used, Option.isSome_iff_exists]

@[simp]
theorem scoped_parens_iff {scope : Scope} {inner : Expression .expression} :
    (parens inner).Scoped scope ↔ inner.Scoped scope := Iff.rfl

@[simp]
theorem scoped_single_iff {scope : Scope} {tier : Tier} {operand : Expression tier.operand} :
    (single operand).Scoped scope ↔ operand.Scoped scope := Iff.rfl

@[simp]
theorem scoped_binary_iff {scope : Scope} {tier : Tier} {left : Expression (.chain tier)}
    {operator : Operator tier} {right : Expression tier.operand} :
    (binary left operator right).Scoped scope ↔ left.Scoped scope ∧ right.Scoped scope := by
  simp [Scoped, used, or_imp, forall_and]

theorem length_code {level : Level} {scope : Scope} {e : Expression level}
    (h : e.Scoped scope) : (e.code scope).length = e.size := by
  induction e with
  | number => rfl
  | ident name =>
    obtain ⟨binding, hbinding⟩ := scoped_ident_iff.1 h
    simp [code, size, hbinding]
  | parens inner ih => exact ih h
  | single operand ih => exact ih h
  | binary left operator right ihl ihr =>
    rw [scoped_binary_iff] at h
    simp only [code, size, List.length_append, List.length_singleton]
    rw [ihl h.1, ihr h.2]
    omega

theorem size_le {level : Level} (e : Expression level) : e.size ≤ e.spelling.length := by
  induction e with
  | number | ident => simp [size, spelling]
  | parens inner ih =>
    simp only [size, spelling, List.length_cons, List.length_append, List.length_nil]
    omega
  | single operand ih => exact ih
  | binary left operator right ihl ihr =>
    simp only [size, spelling, List.length_append, List.length_cons]
    omega

end Expression

namespace Condition

def Scoped (scope : Scope) (c : Condition) : Prop :=
  ∀ name ∈ c.used, (scope name).isSome

def size : Condition → Nat
  | even operand => operand.size + 1
  | compare left _ right => left.size + right.size + 1

def code (scope : Scope) : Condition → List Instruction
  | even operand => operand.code scope ++ [.operate .even]
  | compare left comparison right =>
    left.code scope ++ (right.code scope ++ [.operate comparison.operation])

@[simp]
theorem scoped_even_iff {scope : Scope} {operand : Expression .expression} :
    (even operand).Scoped scope ↔ operand.Scoped scope := Iff.rfl

@[simp]
theorem scoped_compare_iff {scope : Scope} {left : Expression .expression}
    {comparison : Comparison} {right : Expression .expression} :
    (compare left comparison right).Scoped scope ↔ left.Scoped scope ∧ right.Scoped scope := by
  simp [Scoped, Expression.Scoped, used, or_imp, forall_and]

theorem length_code {scope : Scope} {c : Condition} (h : c.Scoped scope) :
    (c.code scope).length = c.size := by
  cases c with
  | even operand =>
    rw [code, size, List.length_append, Expression.length_code h]
    rfl
  | compare left comparison right =>
    rw [scoped_compare_iff] at h
    simp only [code, size, List.length_append, List.length_singleton]
    rw [Expression.length_code h.1, Expression.length_code h.2]
    omega

theorem size_le (c : Condition) : c.size ≤ c.spelling.length := by
  cases c with
  | even operand =>
    have := operand.size_le
    simp only [size, spelling, List.length_cons]
    omega
  | compare left comparison right =>
    have := left.size_le
    have := right.size_le
    simp only [size, spelling, List.length_append, List.length_cons]
    omega

end Condition

namespace Statement

/-- Names used as factors stand for something, and those assigned or read for variables. -/
def Scoped {extent : Extent} (scope : Scope) (s : Statement extent) : Prop :=
  (∀ name ∈ s.used, (scope name).isSome) ∧
    ∀ name ∈ s.assigned, ∃ location, scope name = some (.var location)

def size {extent : Extent} : Statement extent → Nat
  | empty => 0
  | assign _ value => value.size + 1
  | read _ => 2
  | write value => value.size + 1
  | compound body => body.size
  | ifThen condition body => condition.size + 1 + body.size
  | whileDo condition body => condition.size + body.size + 2
  | last statement => statement.size
  | followed first rest => first.size + rest.size

/-- The code of a statement whose first instruction gets the given index. -/
def code {extent : Extent} (scope : Scope) : Statement extent → Nat → List Instruction
  | empty, _ => []
  | assign name value, _ => value.code scope ++ [.store (scope.location name)]
  | read name, _ => [.system .read, .store (scope.location name)]
  | write value, _ => value.code scope ++ [.system .write]
  | compound body, i => body.code scope i
  | ifThen condition body, i =>
    condition.code scope ++
      .branch (Int32.ofNat (3 * (i + condition.size + 1 + body.size))) ::
        body.code scope (i + condition.size + 1)
  | whileDo condition body, i =>
    condition.code scope ++
      .branch (Int32.ofNat (3 * (i + condition.size + body.size + 2))) ::
        (body.code scope (i + condition.size + 1) ++ [.jump (Int32.ofNat (3 * i))])
  | last statement, i => statement.code scope i
  | followed first rest, i => first.code scope i ++ rest.code scope (i + first.size)

@[simp]
theorem scoped_empty (scope : Scope) : empty.Scoped scope := by
  simp [Scoped, used, assigned]

@[simp]
theorem scoped_assign_iff {scope : Scope} {name : String} {value : Expression .expression} :
    (assign name value).Scoped scope ↔
      value.Scoped scope ∧ ∃ location, scope name = some (.var location) := by
  simp [Scoped, Expression.Scoped, used, assigned]

@[simp]
theorem scoped_read_iff {scope : Scope} {name : String} :
    (read name).Scoped scope ↔ ∃ location, scope name = some (.var location) := by
  simp [Scoped, used, assigned]

@[simp]
theorem scoped_write_iff {scope : Scope} {value : Expression .expression} :
    (write value).Scoped scope ↔ value.Scoped scope := by
  simp [Scoped, Expression.Scoped, used, assigned]

@[simp]
theorem scoped_compound_iff {scope : Scope} {body : Statement .list} :
    (compound body).Scoped scope ↔ body.Scoped scope := Iff.rfl

@[simp]
theorem scoped_ifThen_iff {scope : Scope} {condition : Condition} {body : Statement .one} :
    (ifThen condition body).Scoped scope ↔ condition.Scoped scope ∧ body.Scoped scope := by
  simp only [Scoped, Condition.Scoped, used, assigned, List.mem_append, or_imp, forall_and,
    and_assoc]

@[simp]
theorem scoped_whileDo_iff {scope : Scope} {condition : Condition} {body : Statement .one} :
    (whileDo condition body).Scoped scope ↔ condition.Scoped scope ∧ body.Scoped scope := by
  simp only [Scoped, Condition.Scoped, used, assigned, List.mem_append, or_imp, forall_and,
    and_assoc]

@[simp]
theorem scoped_last_iff {scope : Scope} {statement : Statement .one} :
    (last statement).Scoped scope ↔ statement.Scoped scope := Iff.rfl

@[simp]
theorem scoped_followed_iff {scope : Scope} {first : Statement .one} {rest : Statement .list} :
    (followed first rest).Scoped scope ↔ first.Scoped scope ∧ rest.Scoped scope := by
  simp only [Scoped, used, assigned, List.mem_append, or_imp, forall_and]
  apply and_and_and_comm

theorem length_code {extent : Extent} {scope : Scope} {s : Statement extent}
    (h : s.Scoped scope) (i : Nat) : (s.code scope i).length = s.size := by
  induction s generalizing i with
  | empty | read => rfl
  | assign name value =>
    rw [scoped_assign_iff] at h
    rw [code, size, List.length_append, Expression.length_code h.1]
    rfl
  | write value =>
    rw [scoped_write_iff] at h
    rw [code, size, List.length_append, Expression.length_code h]
    rfl
  | compound body ih => exact ih h i
  | ifThen condition body ih =>
    rw [scoped_ifThen_iff] at h
    simp only [code, size, List.length_append, List.length_cons]
    rw [Condition.length_code h.1, ih h.2]
    omega
  | whileDo condition body ih =>
    rw [scoped_whileDo_iff] at h
    simp only [code, size, List.length_append, List.length_cons, List.length_nil]
    rw [Condition.length_code h.1, ih h.2]
    omega
  | last statement ih => exact ih h i
  | followed first rest ihf ihr =>
    rw [scoped_followed_iff] at h
    rw [code, size, List.length_append, ihf h.1, ihr h.2]

theorem size_le {extent : Extent} (s : Statement extent) : s.size ≤ s.spelling.length := by
  induction s with
  | empty | read => simp [size, spelling]
  | assign name value =>
    have := value.size_le
    simp only [size, spelling, List.length_cons]
    omega
  | write value =>
    have := value.size_le
    simp only [size, spelling, List.length_cons]
    omega
  | compound body ih =>
    simp only [size, spelling, List.length_cons, List.length_append]
    omega
  | ifThen condition body ih =>
    have := condition.size_le
    simp only [size, spelling, List.length_cons, List.length_append]
    omega
  | whileDo condition body ih =>
    have := condition.size_le
    simp only [size, spelling, List.length_cons, List.length_append]
    omega
  | last statement ih => exact ih
  | followed first rest ihf ihr =>
    simp only [size, spelling, List.length_cons, List.length_append]
    omega

end Statement

namespace Program

def code (program : Program) : List Instruction :=
  .jump 3 :: .reserve (Int32.ofNat (3 + program.declarations.vars.length)) ::
    (program.body.code program.declarations.scope 2 ++ [.system .halt])

/-- The code of the program, and its symbols as they are left when their scope is closed. -/
def target (program : Program) : TargetProgram :=
  ⟨program.code, program.declarations.symbols true⟩

/-- There is room for the symbols and the code of the program. -/
structure Fits (program : Program) (limits : Limits) : Prop where
  symbols : program.declarations.names.length ≤ limits.maxSymbols
  code : program.code.length ≤ limits.maxCodeLength

theorem WellScoped.scoped_body {program : Program} (h : program.WellScoped) :
    program.body.Scoped program.declarations.scope := by
  constructor
  · intro name hname
    rw [Declarations.isSome_scope_iff]
    exact h.declared name hname
  · intro name hname
    obtain ⟨i, hi⟩ := List.mem_iff_getElem?.1 (h.assignable name hname)
    exact ⟨_, (Declarations.scope_eq_var_iff h.distinct).2 ⟨i, hi, rfl⟩⟩

theorem length_code {program : Program} (h : program.WellScoped) :
    program.code.length = program.body.size + 3 := by
  simp only [code, List.length_cons, List.length_append, List.length_nil]
  rw [Statement.length_code h.scoped_body]

theorem length_code_le {program : Program} (h : program.WellScoped) :
    program.code.length ≤ program.spelling.length + 2 := by
  have := program.body.size_le
  rw [length_code h]
  simp only [spelling, List.length_append, List.length_cons, List.length_nil]
  omega

def countdown : Program where
  declarations := ⟨[("zero", 0)], ["n"]⟩
  body :=
    let n := .single (.single (.ident "n"))
    .compound (.followed (.read "n") (.last
      (.whileDo (.compare n .gtr (.single (.single (.ident "zero"))))
        (.compound (.followed (.write n) (.last
          (.assign "n" (.binary n .minus (.single (.number 1))))))))))

example : countdown.code =
    [.jump 3, .reserve 4, .system .read, .store ⟨0, 3⟩, .load ⟨0, 3⟩, .literal 0, .operate .gtr,
      .branch 45, .load ⟨0, 3⟩, .system .write, .load ⟨0, 3⟩, .literal 1, .operate .sub,
      .store ⟨0, 3⟩, .jump 12, .system .halt] := by
  decide

end Program
end PL0
