import PL0.Proofs.Machine
import PL0.Proofs.Syntax.Basic

/-!
This module contains the meaning of programs without regard to code: the values of expressions, and
the runs of statements as a big-step relation. The operations are the same partial functions that a
machine works with. An expression without a value, or an input that is read to its end, leaves a
statement without a run.
-/

namespace PL0

structure World where
  store : String → Word
  input : List Word
  output : List Word

def World.start (input : List Word) : World :=
  ⟨fun _ => 0, input, []⟩

/-- What a name stands for: a constant for its declared value, a variable for its present one. -/
def Declarations.value (d : Declarations) (store : String → Word) (name : String) : Word :=
  (d.consts.lookup name).getD (store name)

def Expression.eval {level : Level} (a : Arithmetic) (value : String → Word) :
    Expression level → Option Word
  | number n => some n
  | ident name => some (value name)
  | parens inner => inner.eval a value
  | single operand => operand.eval a value
  | binary left operator right => do
    let x ← left.eval a value
    let y ← right.eval a value
    a.binary operator.operation x y

/-- The value of a condition, which counts as true unless it is zero. -/
def Condition.eval (a : Arithmetic) (value : String → Word) : Condition → Option Word
  | even operand => (operand.eval a value).bind a.even
  | compare left comparison right => do
    let x ← left.eval a value
    let y ← right.eval a value
    a.binary comparison.operation x y

/--
A statement leads from one world to another. Declarations tell what the names stand for.
-/
inductive Statement.Runs (a : Arithmetic) (d : Declarations) :
    {extent : Extent} → Statement extent → World → World → Prop where
  | empty (w : World) : Runs a d .empty w w
  | assign {name : String} {value : Expression .expression} {w : World} {x : Word}
      (hvalue : value.eval a (d.value w.store) = some x) :
      Runs a d (.assign name value) w { w with store := Function.update w.store name x }
  | read {name : String} {w : World} {x : Word} {rest : List Word} (hinput : w.input = x :: rest) :
      Runs a d (.read name) w
        { w with store := Function.update w.store name x, input := rest }
  | write {value : Expression .expression} {w : World} {x : Word}
      (hvalue : value.eval a (d.value w.store) = some x) :
      Runs a d (.write value) w { w with output := w.output ++ [x] }
  | compound {body : Statement .list} {w t : World} (hbody : Runs a d body w t) :
      Runs a d (.compound body) w t
  | ifTrue {condition : Condition} {body : Statement .one} {w t : World} {x : Word}
      (hcondition : condition.eval a (d.value w.store) = some x) (hx : x ≠ 0)
      (hbody : Runs a d body w t) : Runs a d (.ifThen condition body) w t
  | ifFalse {condition : Condition} {body : Statement .one} {w : World}
      (hcondition : condition.eval a (d.value w.store) = some 0) :
      Runs a d (.ifThen condition body) w w
  | whileTrue {condition : Condition} {body : Statement .one} {w u t : World} {x : Word}
      (hcondition : condition.eval a (d.value w.store) = some x) (hx : x ≠ 0)
      (hbody : Runs a d body w u) (hloop : Runs a d (.whileDo condition body) u t) :
      Runs a d (.whileDo condition body) w t
  | whileFalse {condition : Condition} {body : Statement .one} {w : World}
      (hcondition : condition.eval a (d.value w.store) = some 0) :
      Runs a d (.whileDo condition body) w w
  | last {statement : Statement .one} {w t : World} (hstatement : Runs a d statement w t) :
      Runs a d (.last statement) w t
  | followed {first : Statement .one} {rest : Statement .list} {w u t : World}
      (hfirst : Runs a d first w u) (hrest : Runs a d rest u t) :
      Runs a d (.followed first rest) w t

/-- The program terminates on the input and has written the given output. -/
def Program.Outputs (a : Arithmetic) (program : Program) (input output : List Word) : Prop :=
  ∃ w, program.body.Runs a program.declarations (.start input) w ∧ w.output = output

end PL0
