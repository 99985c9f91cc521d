import PL0.Proofs.Compilation
import PL0.Proofs.Meaning

/-!
This module contains the proof that code does what its program means. The code of an expression puts
the value on the stack and changes nothing below, or leaves the machine stuck if there is no value.
The code of a statement takes a machine that represents a world to one that represents the world
after a run of the statement; and wherever the machine halts afterwards, there is such a run.
-/

namespace PL0

namespace Machine

/-- What the names of the scope stand for can be found in the stack. -/
structure Holds (m : Machine) (scope : Scope) (value : String → Word) : Prop where
  const {name : String} {x : Word} (h : scope name = some (.const x)) : value name = x
  var {name : String} {location : Location} (h : scope name = some (.var location)) :
    location.levels = 0 ∧ Word.index location.address < m.sp ∧
      m.stack (Word.index location.address) = value name

/-- The machine has come to an index and has put a word on the stack; all else is unchanged. -/
structure Pushed (m t : Machine) (i : Nat) (x : Word) : Prop where
  pc : t.pc = 3 * i
  sp : t.sp = m.sp + 1
  top : t.stack m.sp = x
  below {j : Nat} (hj : j < m.sp) : t.stack j = m.stack j
  input : t.input = m.input
  output : t.output = m.output

theorem Pushed.holds {m t : Machine} {i : Nat} {x : Word} {scope : Scope} {value : String → Word}
    (h : m.Pushed t i x) (hholds : m.Holds scope value) : t.Holds scope value := by
  constructor
  · exact hholds.const
  · intro name location hname
    obtain ⟨hlevels, hlt, hstack⟩ := hholds.var hname
    refine ⟨hlevels, ?_, ?_⟩
    · rw [h.sp]
      omega
    · rw [h.below hlt, hstack]

/-- The machine comes to the index with the result on the stack, or is stuck if there is none. -/
def Evaluates (a : Arithmetic) (code : List Instruction) (m : Machine) (i : Nat) :
    Option Word → Prop
  | some x => ∃ t, m.Reaches a code t ∧ m.Pushed t i x
  | none => m.Stuck a code

variable {a : Arithmetic} {code : List Instruction} {m : Machine} {i : Nat}

theorem pushed_update {x : Word} :
    m.Pushed { m with
      pc := 3 * i
      sp := m.sp + 1
      stack := Function.update m.stack m.sp x } i x := by
  refine ⟨rfl, rfl, Function.update_self .., ?_, rfl, rfl⟩
  intro j hj
  exact Function.update_of_ne (Nat.ne_of_lt hj) ..

theorem evaluates_literal {x : Word} (hpc : m.pc = 3 * i) (h : code[i]? = some (.literal x)) :
    m.Evaluates a code (i + 1) (some x) :=
  ⟨_, .of_step (step_literal hpc h), pushed_update⟩

theorem evaluates_fetch {scope : Scope} {value : String → Word} {name : String} {binding : Binding}
    (hholds : m.Holds scope value) (hname : scope name = some binding) (hpc : m.pc = 3 * i)
    (h : code[i]? = some binding.fetch) : m.Evaluates a code (i + 1) (some (value name)) := by
  cases binding with
  | const x =>
    rw [hholds.const hname]
    exact evaluates_literal hpc h
  | var location =>
    obtain ⟨hlevels, _, hstack⟩ := hholds.var hname
    rw [← hstack]
    exact ⟨_, .of_step (step_load hlevels hpc h), pushed_update⟩

theorem evaluates_of_step {t : Machine} {operation : Operation} {result : Option Word}
    (hreaches : m.Reaches a code t) (hpc : t.pc = 3 * i)
    (h : code[i]? = some (.operate operation))
    (hstep : t.step a code = result.map fun z =>
      { t with pc := 3 * (i + 1), sp := m.sp + 1, stack := Function.update t.stack m.sp z })
    (hbelow : ∀ j < m.sp, t.stack j = m.stack j) (hinput : t.input = m.input)
    (houtput : t.output = m.output) : m.Evaluates a code (i + 1) result := by
  cases result with
  | none =>
    refine ⟨t, hreaches, hstep, ?_⟩
    rw [atHalt_iff hpc, h]
    simp [Instruction.operate, Instruction.system]
  | some z =>
    rw [Option.map_some] at hstep
    refine ⟨_, hreaches.trans (.of_step hstep), rfl, rfl, Function.update_self .., ?_, hinput,
      houtput⟩
    intro j hj
    dsimp only
    rw [Function.update_of_ne (Nat.ne_of_lt hj), hbelow j hj]

theorem evaluates_even {result : Option Word} (hresult : m.Evaluates a code i result)
    (h : code[i]? = some (.operate .even)) : m.Evaluates a code (i + 1) (result.bind a.even) := by
  cases result with
  | none => exact hresult
  | some x =>
    obtain ⟨t, hreaches, ht⟩ := hresult
    have hstep := step_even (a := a) ht.pc h ht.sp
    rw [ht.top] at hstep
    exact evaluates_of_step hreaches ht.pc h hstep (fun j hj => ht.below hj) ht.input ht.output

theorem evaluates_binary {operation : Operation} (hoperation : operation ≠ .even) {j : Nat}
    {left right : Option Word} (hleft : m.Evaluates a code i left)
    (hright : ∀ u x, m.Pushed u i x → u.Evaluates a code j right)
    (h : code[j]? = some (.operate operation)) :
    m.Evaluates a code (j + 1) (left.bind fun x => right.bind fun y => a.binary operation x y) := by
  cases left with
  | none => exact hleft
  | some x =>
    obtain ⟨u, hreaches, hu⟩ := hleft
    have hright := hright u x hu
    cases right with
    | none => exact hreaches.stuck hright
    | some y =>
      obtain ⟨t, hreaches', ht⟩ := hright
      have hsp : t.sp = m.sp + 2 := by rw [ht.sp, hu.sp]
      have hstep := step_operate (a := a) hoperation ht.pc h hsp
      have hx : t.stack m.sp = x := by
        rw [ht.below, hu.top]
        rw [hu.sp]
        omega
      have hy : t.stack (m.sp + 1) = y := by rw [← hu.sp, ht.top]
      rw [hx, hy] at hstep
      apply evaluates_of_step (hreaches.trans hreaches') ht.pc h hstep
      · intro k hk
        rw [ht.below, hu.below hk]
        rw [hu.sp]
        omega
      · rw [ht.input, hu.input]
      · rw [ht.output, hu.output]

end Machine

variable {a : Arithmetic} {code : List Instruction} {m : Machine} {i : Nat}

theorem Expression.evaluates {level : Level} {e : Expression level} {scope : Scope}
    {value : String → Word} (hscoped : e.Scoped scope) (hcode : CodeAt code i (e.code scope))
    (hpc : m.pc = 3 * i) (hholds : m.Holds scope value) :
    m.Evaluates a code (i + e.size) (e.eval a value) := by
  induction e generalizing m i with
  | number n => exact Machine.evaluates_literal hpc hcode.1
  | ident name =>
    obtain ⟨binding, hname⟩ := scoped_ident_iff.1 hscoped
    rw [Expression.code, hname] at hcode
    exact Machine.evaluates_fetch hholds hname hpc hcode.1
  | parens inner ih => exact ih hscoped hcode hpc hholds
  | single operand ih => exact ih hscoped hcode hpc hholds
  | binary left operator right ihl ihr =>
    rw [scoped_binary_iff] at hscoped
    rw [Expression.code, CodeAt.append_iff, CodeAt.append_iff, length_code hscoped.1,
      length_code hscoped.2] at hcode
    obtain ⟨hleft, hright, hoperator, _⟩ := hcode
    rw [size, ← Nat.add_assoc, ← Nat.add_assoc]
    apply Machine.evaluates_binary operator.operation_ne_even (ihl hscoped.1 hleft hpc hholds)
    · intro u x hu
      exact ihr hscoped.2 hright hu.pc (hu.holds hholds)
    · exact hoperator

theorem Condition.evaluates {c : Condition} {scope : Scope} {value : String → Word}
    (hscoped : c.Scoped scope) (hcode : CodeAt code i (c.code scope)) (hpc : m.pc = 3 * i)
    (hholds : m.Holds scope value) : m.Evaluates a code (i + c.size) (c.eval a value) := by
  cases c with
  | even operand =>
    rw [Condition.code, CodeAt.append_iff, Expression.length_code hscoped] at hcode
    obtain ⟨hoperand, heven, _⟩ := hcode
    rw [size, ← Nat.add_assoc]
    exact Machine.evaluates_even (Expression.evaluates hscoped hoperand hpc hholds) heven
  | compare left comparison right =>
    rw [scoped_compare_iff] at hscoped
    rw [Condition.code, CodeAt.append_iff, CodeAt.append_iff, Expression.length_code hscoped.1,
      Expression.length_code hscoped.2] at hcode
    obtain ⟨hleft, hright, hcomparison, _⟩ := hcode
    rw [size, ← Nat.add_assoc, ← Nat.add_assoc]
    apply Machine.evaluates_binary comparison.operation_ne_even
      (Expression.evaluates hscoped.1 hleft hpc hholds)
    · intro u x hu
      exact Expression.evaluates hscoped.2 hright hu.pc (hu.holds hholds)
    · exact hcomparison

namespace Declarations

variable {d : Declarations} {store : String → Word} {name : String}

theorem value_of_const {x : Word} (h : d.scope name = some (.const x)) :
    d.value store name = x := by
  unfold scope at h
  split at h
  · next y hlookup =>
    cases h
    rw [value, hlookup, Option.getD_some]
  · simp at h

theorem value_of_var {location : Location} (h : d.scope name = some (.var location)) :
    d.value store name = store name := by
  unfold scope at h
  split at h
  · cases h
  · next hlookup => rw [value, hlookup, Option.getD_none]

end Declarations

/-- No name is declared twice, and words can hold all addresses in the frame and in the code. -/
structure Declarations.Admissible (d : Declarations) (code : List Instruction) : Prop where
  distinct : d.names.Nodup
  frame : 3 + d.vars.length < 2147483648
  code : 3 * code.length < 2147483648

/-- The machine has come to an index; its stack holds the frame only, with the values of the
variables, and input and output are those of the world. -/
structure Machine.Represents (m : Machine) (d : Declarations) (i : Nat) (w : World) : Prop where
  pc : m.pc = 3 * i
  sp : m.sp = 3 + d.vars.length
  store {k : Nat} {name : String} (h : d.vars[k]? = some name) : m.stack (3 + k) = w.store name
  input : m.input = w.input
  output : m.output = w.output

namespace Machine.Represents

variable {d : Declarations} {w : World} {t : Machine} {k : Nat} {name : String}

theorem lt_sp (h : m.Represents d i w) (hk : d.vars[k]? = some name) : 3 + k < m.sp := by
  have hlt := (List.getElem?_eq_some_iff.1 hk).1
  rw [h.sp]
  omega

theorem holds (hd : d.Admissible code) (h : m.Represents d i w) :
    m.Holds d.scope (d.value w.store) := by
  constructor
  · exact Declarations.value_of_const
  · intro name location hname
    rw [Declarations.value_of_var hname]
    obtain ⟨k, hk, rfl⟩ := (Declarations.scope_eq_var_iff hd.distinct).1 hname
    have hlt := h.lt_sp hk
    rw [Word.index_ofNat (Nat.lt_trans hlt (by rw [h.sp]; exact hd.frame))]
    exact ⟨rfl, hlt, h.store hk⟩

theorem congr {j : Nat} (h : m.Represents d i w) (hpc : t.pc = 3 * j) (hsp : t.sp = m.sp)
    (hstack : ∀ l < m.sp, t.stack l = m.stack l) (hinput : t.input = m.input)
    (houtput : t.output = m.output) : t.Represents d j w := by
  refine ⟨hpc, ?_, ?_, ?_, ?_⟩
  · rw [hsp, h.sp]
  · intro k name hk
    rw [hstack _ (h.lt_sp hk), h.store hk]
  · rw [hinput, h.input]
  · rw [houtput, h.output]

theorem step_store (hd : d.Admissible code) (h : m.Represents d i w) {j : Nat} {x : Word}
    {location : Location} (ht : m.Pushed t j x) (hname : d.scope name = some (.var location))
    (hstore : code[j]? = some (.store location)) :
    ∃ u, t.step a code = some u ∧
      u.Represents d (j + 1) { w with store := Function.update w.store name x } := by
  obtain ⟨k, hk, rfl⟩ := (Declarations.scope_eq_var_iff hd.distinct).1 hname
  have hlt : 3 + k < 2147483648 := Nat.lt_trans (h.lt_sp hk) (by rw [h.sp]; exact hd.frame)
  have hstep := Machine.step_store (a := a) rfl ht.pc hstore ht.sp
  rw [Word.index_ofNat hlt, ht.top] at hstep
  refine ⟨_, hstep, rfl, h.sp, ?_, ?_, ?_⟩
  · intro l other hl
    dsimp only
    by_cases heq : l = k
    · subst heq
      rw [hk] at hl
      cases hl
      rw [Function.update_self, Function.update_self]
    · have hvars : d.vars.Nodup := (List.nodup_append.1 hd.distinct).2.1
      have hne : other ≠ name := by
        rintro rfl
        obtain ⟨hl, hother⟩ := List.getElem?_eq_some_iff.1 hl
        obtain ⟨hk, hname⟩ := List.getElem?_eq_some_iff.1 hk
        exact heq ((List.Nodup.getElem_inj_iff hvars).1 (hother.trans hname.symm))
      rw [Function.update_of_ne (by omega), Function.update_of_ne hne, ht.below (h.lt_sp hl),
        h.store hl]
  · rw [← h.input, ← ht.input]
  · rw [← h.output, ← ht.output]

end Machine.Represents

namespace Condition

variable {c : Condition} {d : Declarations} {w : World} {target : Nat} {rest : List Instruction}

theorem stuck_of_eval (hd : d.Admissible code) (hscoped : c.Scoped d.scope)
    (hcode : CodeAt code i (c.code d.scope ++ rest))
    (hm : m.Represents d i w) (heval : c.eval a (d.value w.store) = none) : m.Stuck a code := by
  have hevaluates : m.Evaluates a code (i + c.size) (c.eval a (d.value w.store)) :=
    evaluates hscoped (CodeAt.append_iff.1 hcode).1 hm.pc (hm.holds hd)
  rw [heval] at hevaluates
  exact hevaluates

theorem advances_of_eval (hd : d.Admissible code) (htarget : target ≤ code.length)
    (hscoped : c.Scoped d.scope)
    (hcode : CodeAt code i (c.code d.scope ++ .branch (Int32.ofNat (3 * target)) :: rest))
    (hm : m.Represents d i w) {x : Word} (heval : c.eval a (d.value w.store) = some x) :
    ∃ t, m.Advances a code t ∧ t.Represents d (if x = 0 then target else i + c.size + 1) w := by
  rw [CodeAt.append_iff, length_code hscoped] at hcode
  obtain ⟨hcondition, hbranch, _⟩ := hcode
  have hevaluates : m.Evaluates a code (i + c.size) (c.eval a (d.value w.store)) :=
    evaluates hscoped hcondition hm.pc (hm.holds hd)
  rw [heval] at hevaluates
  obtain ⟨t, hreaches, ht⟩ := hevaluates
  have hstep := Machine.step_branch (a := a) ht.pc hbranch ht.sp
  have hlt : 3 * target < 2147483648 :=
    Nat.lt_of_le_of_lt (Nat.mul_le_mul_left 3 htarget) hd.code
  rw [ht.top, Word.index_ofNat hlt] at hstep
  refine ⟨_, ⟨t, hreaches, hstep⟩, ?_⟩
  refine hm.congr ?_ rfl (fun l hl => ht.below hl) ht.input ht.output
  by_cases hx : x = 0 <;> simp [hx]

end Condition

/-- The machine comes to the index and represents the world, or is stuck if there is none. -/
def Machine.Arrives (a : Arithmetic) (code : List Instruction) (m : Machine) (d : Declarations)
    (i : Nat) : Option World → Prop
  | some w => ∃ t, m.Reaches a code t ∧ t.Represents d i w
  | none => m.Stuck a code

namespace Statement

variable {d : Declarations} {w : World}

theorem arrives_assign {name : String} {value : Expression .expression} (hd : d.Admissible code)
    (hscoped : (assign name value).Scoped d.scope)
    (hcode : CodeAt code i ((assign name value).code d.scope i)) (hm : m.Represents d i w) :
    m.Arrives a code d (i + (assign name value).size)
      ((value.eval a (d.value w.store)).map fun x =>
        { w with store := Function.update w.store name x }) := by
  obtain ⟨hvalue, location, hlocation⟩ := scoped_assign_iff.1 hscoped
  rw [Statement.code, CodeAt.append_iff, Expression.length_code hvalue,
    Scope.location_eq hlocation] at hcode
  obtain ⟨hread, hstore, _⟩ := hcode
  have hevaluates : m.Evaluates a code (i + value.size) (value.eval a (d.value w.store)) :=
    Expression.evaluates hvalue hread hm.pc (hm.holds hd)
  cases heval : value.eval a (d.value w.store) with
  | none =>
    rw [heval] at hevaluates
    exact hevaluates
  | some x =>
    rw [heval] at hevaluates
    obtain ⟨t, hreaches, ht⟩ := hevaluates
    obtain ⟨u, hstep, hu⟩ := hm.step_store hd ht hlocation hstore
    exact ⟨u, hreaches.trans (.of_step hstep), hu⟩

theorem arrives_read {name : String} (hd : d.Admissible code)
    (hscoped : (read name).Scoped d.scope) (hcode : CodeAt code i ((read name).code d.scope i))
    (hm : m.Represents d i w) :
    m.Arrives a code d (i + (read name).size)
      (match w.input with
      | [] => none
      | x :: rest => some { w with store := Function.update w.store name x, input := rest }) := by
  obtain ⟨location, hlocation⟩ := scoped_read_iff.1 hscoped
  rw [Statement.code, Scope.location_eq hlocation] at hcode
  obtain ⟨hread, hstore, _⟩ := hcode
  cases hinput : w.input with
  | nil =>
    rw [← hm.input] at hinput
    refine ⟨m, .refl m, Machine.step_read_nil hm.pc hread hinput, ?_⟩
    rw [Machine.atHalt_iff hm.pc, hread]
    simp [Instruction.system, SystemCall.code]
  | cons x rest =>
    rw [← hm.input] at hinput
    have hrest : { m with input := rest }.Represents d i { w with input := rest } :=
      ⟨hm.pc, hm.sp, hm.store, rfl, hm.output⟩
    obtain ⟨u, hstep, hu⟩ := hrest.step_store hd Machine.pushed_update hlocation hstore
    have hreaches := Machine.Reaches.of_step (Machine.step_read (a := a) hm.pc hread hinput)
    exact ⟨u, hreaches.trans (.of_step hstep), hu⟩

theorem arrives_write {value : Expression .expression} (hd : d.Admissible code)
    (hscoped : (write value).Scoped d.scope)
    (hcode : CodeAt code i ((write value).code d.scope i)) (hm : m.Represents d i w) :
    m.Arrives a code d (i + (write value).size)
      ((value.eval a (d.value w.store)).map fun x => { w with output := w.output ++ [x] }) := by
  rw [scoped_write_iff] at hscoped
  rw [Statement.code, CodeAt.append_iff, Expression.length_code hscoped] at hcode
  obtain ⟨hread, hwrite, _⟩ := hcode
  have hevaluates : m.Evaluates a code (i + value.size) (value.eval a (d.value w.store)) :=
    Expression.evaluates hscoped hread hm.pc (hm.holds hd)
  cases heval : value.eval a (d.value w.store) with
  | none =>
    rw [heval] at hevaluates
    exact hevaluates
  | some x =>
    rw [heval] at hevaluates
    obtain ⟨t, hreaches, ht⟩ := hevaluates
    have hstep := Machine.step_write (a := a) ht.pc hwrite ht.sp
    refine ⟨_, hreaches.trans (.of_step hstep), rfl, hm.sp, ?_, ?_, ?_⟩
    · intro k name hk
      rw [← hm.store hk]
      exact ht.below (hm.lt_sp hk)
    · rw [← hm.input, ← ht.input]
    · dsimp only
      rw [ht.output, ht.top, hm.output]

theorem length_le_of_codeAt {extent : Extent} {s : Statement extent} {scope : Scope}
    (hscoped : s.Scoped scope) (hcode : CodeAt code i (s.code scope i)) (hsize : 0 < s.size) :
    i + s.size ≤ code.length := by
  rw [← length_code hscoped i] at hsize ⊢
  exact hcode.length_le (List.ne_nil_of_length_pos hsize)

theorem codeAt_ifThen {condition : Condition} {body : Statement .one} {scope : Scope}
    (hscoped : condition.Scoped scope)
    (hcode : CodeAt code i ((ifThen condition body).code scope i)) :
    CodeAt code (i + condition.size + 1) (body.code scope (i + condition.size + 1)) := by
  rw [Statement.code, CodeAt.append_iff, Condition.length_code hscoped] at hcode
  exact hcode.2.2

theorem codeAt_whileDo {condition : Condition} {body : Statement .one} {scope : Scope}
    (hscoped : (whileDo condition body).Scoped scope)
    (hcode : CodeAt code i ((whileDo condition body).code scope i)) :
    CodeAt code (i + condition.size + 1) (body.code scope (i + condition.size + 1)) ∧
      code[i + condition.size + 1 + body.size]? = some (.jump (Int32.ofNat (3 * i))) := by
  rw [scoped_whileDo_iff] at hscoped
  rw [Statement.code, CodeAt.append_iff, Condition.length_code hscoped.1] at hcode
  obtain ⟨_, _, hloop⟩ := hcode
  rw [CodeAt.append_iff, length_code hscoped.2] at hloop
  exact ⟨hloop.1, hloop.2.1⟩

theorem advances_ifThen {condition : Condition} {body : Statement .one}
    (hd : d.Admissible code) (hscoped : (ifThen condition body).Scoped d.scope)
    (hcode : CodeAt code i ((ifThen condition body).code d.scope i)) (hm : m.Represents d i w)
    {x : Word} (heval : condition.eval a (d.value w.store) = some x) :
    ∃ t, m.Advances a code t ∧ t.Represents d
      (if x = 0 then i + (ifThen condition body).size else i + condition.size + 1) w := by
  have hlength := length_le_of_codeAt hscoped hcode (by rw [size]; omega)
  have hend : i + (ifThen condition body).size = i + condition.size + 1 + body.size := by
    rw [size]
    omega
  rw [hend] at hlength ⊢
  exact Condition.advances_of_eval hd hlength (scoped_ifThen_iff.1 hscoped).1 hcode hm heval

theorem advances_whileDo {condition : Condition} {body : Statement .one}
    (hd : d.Admissible code) (hscoped : (whileDo condition body).Scoped d.scope)
    (hcode : CodeAt code i ((whileDo condition body).code d.scope i)) (hm : m.Represents d i w)
    {x : Word} (heval : condition.eval a (d.value w.store) = some x) :
    ∃ t, m.Advances a code t ∧ t.Represents d
      (if x = 0 then i + (whileDo condition body).size else i + condition.size + 1) w := by
  have hlength := length_le_of_codeAt hscoped hcode (by rw [size]; omega)
  have hend : i + (whileDo condition body).size = i + condition.size + body.size + 2 := by
    rw [size]
    omega
  rw [hend] at hlength ⊢
  exact Condition.advances_of_eval hd hlength (scoped_whileDo_iff.1 hscoped).1 hcode hm heval

theorem advances_jump {condition : Condition} {body : Statement .one} (hd : d.Admissible code)
    (hscoped : (whileDo condition body).Scoped d.scope)
    (hcode : CodeAt code i ((whileDo condition body).code d.scope i))
    (hm : m.Represents d (i + condition.size + 1 + body.size) w) :
    ∃ t, m.Advances a code t ∧ t.Represents d i w := by
  have hlength := length_le_of_codeAt hscoped hcode (by rw [size]; omega)
  have hlt : 3 * i < 2147483648 := by
    have hlimit := hd.code
    omega
  have hstep := Machine.step_jump (a := a) hm.pc (codeAt_whileDo hscoped hcode).2
  rw [Word.index_ofNat hlt] at hstep
  exact ⟨_, ⟨m, .refl m, hstep⟩, rfl, hm.sp, hm.store, hm.input, hm.output⟩

theorem Runs.reaches {extent : Extent} {s : Statement extent} {w' : World} (h : s.Runs a d w w')
    (hd : d.Admissible code) (hscoped : s.Scoped d.scope)
    (hcode : CodeAt code i (s.code d.scope i)) (hm : m.Represents d i w) :
    ∃ t, m.Reaches a code t ∧ t.Represents d (i + s.size) w' := by
  -- By induction on the run: a loop that goes on is run again.
  induction h generalizing m i with
  | empty w => exact ⟨m, .refl m, hm⟩
  | assign hvalue =>
    have harrives := arrives_assign (a := a) hd hscoped hcode hm
    rw [hvalue] at harrives
    exact harrives
  | read hinput =>
    have harrives := arrives_read (a := a) hd hscoped hcode hm
    rw [hinput] at harrives
    exact harrives
  | write hvalue =>
    have harrives := arrives_write (a := a) hd hscoped hcode hm
    rw [hvalue] at harrives
    exact harrives
  | compound _ ih => exact ih hscoped hcode hm
  | @ifTrue condition body _ _ x hcondition hx _ ih =>
    obtain ⟨u, hadvances, hu⟩ := advances_ifThen hd hscoped hcode hm hcondition
    rw [if_neg hx] at hu
    rw [scoped_ifThen_iff] at hscoped
    obtain ⟨t, hreaches, ht⟩ := ih hscoped.2 (codeAt_ifThen hscoped.1 hcode) hu
    refine ⟨t, hadvances.reaches.trans hreaches, ?_⟩
    rw [size, ← Nat.add_assoc, ← Nat.add_assoc]
    exact ht
  | ifFalse hcondition =>
    obtain ⟨t, hadvances, ht⟩ := advances_ifThen hd hscoped hcode hm hcondition
    exact ⟨t, hadvances.reaches, ht⟩
  | whileTrue hcondition hx _ _ ihbody ihloop =>
    obtain ⟨u, hadvances, hu⟩ := advances_whileDo hd hscoped hcode hm hcondition
    rw [if_neg hx] at hu
    obtain ⟨v, hbody, hv⟩ := ihbody (scoped_whileDo_iff.1 hscoped).2
      (codeAt_whileDo hscoped hcode).1 hu
    obtain ⟨n, hback, hn⟩ := advances_jump hd hscoped hcode hv
    obtain ⟨t, hloop, ht⟩ := ihloop hscoped hcode hn
    exact ⟨t, hadvances.reaches.trans (hbody.trans (hback.reaches.trans hloop)), ht⟩
  | whileFalse hcondition =>
    obtain ⟨t, hadvances, ht⟩ := advances_whileDo hd hscoped hcode hm hcondition
    exact ⟨t, hadvances.reaches, ht⟩
  | last _ ih => exact ih hscoped hcode hm
  | followed _ _ ihfirst ihrest =>
    rw [scoped_followed_iff] at hscoped
    rw [Statement.code, CodeAt.append_iff, length_code hscoped.1] at hcode
    obtain ⟨u, hfirst, hu⟩ := ihfirst hscoped.1 hcode.1 hm
    obtain ⟨t, hrest, ht⟩ := ihrest hscoped.2 hcode.2 hu
    refine ⟨t, hfirst.trans hrest, ?_⟩
    rw [size, ← Nat.add_assoc]
    exact ht

theorem exists_of_arrives {j n : Nat} {output : List Word} {world : Option World}
    (hhalts : m.HaltsIn a code n output) (harrives : m.Arrives a code d j world) :
    ∃ w', world = some w' ∧ ∃ t, m.Reaches a code t ∧ t.Represents d j w' := by
  cases world with
  | none => exact absurd harrives hhalts.not_stuck
  | some w' => exact ⟨w', rfl, harrives⟩

theorem exists_eval {condition : Condition} {rest : List Instruction} {n : Nat}
    {output : List Word} (hd : d.Admissible code) (hscoped : condition.Scoped d.scope)
    (hcode : CodeAt code i (condition.code d.scope ++ rest)) (hm : m.Represents d i w)
    (hhalts : m.HaltsIn a code n output) :
    ∃ x, condition.eval a (d.value w.store) = some x := by
  cases heval : condition.eval a (d.value w.store) with
  | none => exact absurd (condition.stuck_of_eval hd hscoped hcode hm heval) hhalts.not_stuck
  | some x => exact ⟨x, rfl⟩

theorem exists_runs_whileDo {condition : Condition} {body : Statement .one}
    {output : List Word} (hd : d.Admissible code)
    (hscoped : (whileDo condition body).Scoped d.scope)
    (hcode : CodeAt code i ((whileDo condition body).code d.scope i))
    (hbody : ∀ {m : Machine} {w : World} {n : Nat},
      m.Represents d (i + condition.size + 1) w → m.HaltsIn a code n output →
        ∃ w' t, body.Runs a d w w' ∧ m.Reaches a code t ∧
          t.Represents d (i + condition.size + 1 + body.size) w')
    (hm : m.Represents d i w) {n : Nat} (hhalts : m.HaltsIn a code n output) :
    ∃ w' t, (whileDo condition body).Runs a d w w' ∧ m.Reaches a code t ∧
      t.Represents d (i + (whileDo condition body).size) w' := by
  -- Each time around takes steps of the machine, so there are fewer left to the halt.
  induction n using Nat.strongRecOn generalizing m w with
  | ind n ih =>
    obtain ⟨x, heval⟩ := exists_eval hd (scoped_whileDo_iff.1 hscoped).1 hcode hm hhalts
    obtain ⟨u, hadvances, hu⟩ := advances_whileDo hd hscoped hcode hm heval
    obtain ⟨k, hk, hhalts⟩ := hhalts.of_advances hadvances
    by_cases hx : x = 0
    · subst hx
      exact ⟨w, u, .whileFalse heval, hadvances.reaches, hu⟩
    · rw [if_neg hx] at hu
      obtain ⟨w', v, hruns, hv, hrepresents⟩ := hbody hu hhalts
      obtain ⟨k', hk', hhalts⟩ := hhalts.of_reaches hv
      obtain ⟨l, hback, hl⟩ := advances_jump hd hscoped hcode hrepresents
      obtain ⟨k'', hk'', hhalts⟩ := hhalts.of_advances hback
      obtain ⟨w'', t, hloop, ht, hend⟩ := ih k'' (by omega) hl hhalts
      refine ⟨w'', t, .whileTrue heval hx hruns hloop, ?_, hend⟩
      exact hadvances.reaches.trans (hv.trans (hback.reaches.trans ht))

theorem exists_runs {extent : Extent} {s : Statement extent} (hd : d.Admissible code)
    (hscoped : s.Scoped d.scope) (hcode : CodeAt code i (s.code d.scope i))
    (hm : m.Represents d i w) {n : Nat} {output : List Word}
    (hhalts : m.HaltsIn a code n output) :
    ∃ w' t, s.Runs a d w w' ∧ m.Reaches a code t ∧ t.Represents d (i + s.size) w' := by
  -- There is no run to follow yet, so the induction is on the statement.
  induction s generalizing m i w n with
  | empty => exact ⟨w, m, .empty w, .refl m, hm⟩
  | assign name value =>
    obtain ⟨w', hw', t, hreaches, ht⟩ :=
      exists_of_arrives hhalts (arrives_assign hd hscoped hcode hm)
    obtain ⟨x, heval, rfl⟩ := Option.map_eq_some_iff.1 hw'
    exact ⟨_, t, .assign heval, hreaches, ht⟩
  | read name =>
    obtain ⟨w', hw', t, hreaches, ht⟩ :=
      exists_of_arrives hhalts (arrives_read hd hscoped hcode hm)
    split at hw'
    · cases hw'
    · next x rest hinput =>
      cases hw'
      exact ⟨_, t, .read hinput, hreaches, ht⟩
  | write value =>
    obtain ⟨w', hw', t, hreaches, ht⟩ :=
      exists_of_arrives hhalts (arrives_write hd hscoped hcode hm)
    obtain ⟨x, heval, rfl⟩ := Option.map_eq_some_iff.1 hw'
    exact ⟨_, t, .write heval, hreaches, ht⟩
  | compound body ih =>
    obtain ⟨w', t, hruns, ht⟩ := ih hscoped hcode hm hhalts
    exact ⟨w', t, .compound hruns, ht⟩
  | ifThen condition body ih =>
    obtain ⟨x, heval⟩ := exists_eval hd (scoped_ifThen_iff.1 hscoped).1 hcode hm hhalts
    obtain ⟨u, hadvances, hu⟩ := advances_ifThen hd hscoped hcode hm heval
    obtain ⟨k, _, hhalts⟩ := hhalts.of_advances hadvances
    by_cases hx : x = 0
    · subst hx
      exact ⟨w, u, .ifFalse heval, hadvances.reaches, hu⟩
    · rw [if_neg hx] at hu
      rw [scoped_ifThen_iff] at hscoped
      obtain ⟨w', t, hruns, hreaches, ht⟩ :=
        ih hscoped.2 (codeAt_ifThen hscoped.1 hcode) hu hhalts
      refine ⟨w', t, .ifTrue heval hx hruns, hadvances.reaches.trans hreaches, ?_⟩
      rw [size, ← Nat.add_assoc, ← Nat.add_assoc]
      exact ht
  | whileDo condition body ih =>
    apply exists_runs_whileDo hd hscoped hcode ?_ hm hhalts
    intro m w n hm hhalts
    exact ih (scoped_whileDo_iff.1 hscoped).2 (codeAt_whileDo hscoped hcode).1 hm hhalts
  | last statement ih =>
    obtain ⟨w', t, hruns, ht⟩ := ih hscoped hcode hm hhalts
    exact ⟨w', t, .last hruns, ht⟩
  | followed first rest ihfirst ihrest =>
    rw [scoped_followed_iff] at hscoped
    rw [Statement.code, CodeAt.append_iff, length_code hscoped.1] at hcode
    obtain ⟨u, v, hfirst, hv, hrepresents⟩ := ihfirst hscoped.1 hcode.1 hm hhalts
    obtain ⟨k, _, hhalts⟩ := hhalts.of_reaches hv
    obtain ⟨w', t, hrest, ht, hend⟩ := ihrest hscoped.2 hcode.2 hrepresents hhalts
    refine ⟨w', t, .followed hfirst hrest, hv.trans ht, ?_⟩
    rw [size, ← Nat.add_assoc]
    exact hend

end Statement

namespace Program

theorem exists_represents {program : Program} (haddressable : program.Addressable)
    (input : List Word) :
    ∃ m, (Machine.start input).Reaches a program.code m ∧
      m.Represents program.declarations 2 (.start input) := by
  obtain ⟨hfirst, hsecond, _⟩ := CodeAt.refl program.code
  have hjump := Machine.step_jump (a := a) (m := .start input) rfl hfirst
  have hreserve := Machine.step_reserve (a := a) (m := { Machine.start input with pc := 3 }) rfl
    hsecond
  rw [Word.index_ofNat haddressable.frame] at hreserve
  refine ⟨_, (Machine.Reaches.of_step hjump).trans (.of_step hreserve), rfl, ?_, ?_, rfl, rfl⟩
  · exact Nat.zero_add _
  · intro k name _
    rfl

theorem outputs_iff_halts {program : Program} (hscoped : program.WellScoped)
    (haddressable : program.Addressable) (input output : List Word) :
    program.Outputs a input output ↔ (Machine.start input).Halts a program.code output := by
  have hd : program.declarations.Admissible program.code :=
    ⟨hscoped.distinct, haddressable.frame, haddressable.code⟩
  obtain ⟨_, _, hbody⟩ := CodeAt.refl program.code
  rw [CodeAt.append_iff, Statement.length_code hscoped.scoped_body] at hbody
  obtain ⟨hbody, hhalt, _⟩ := hbody
  obtain ⟨m, hstart, hm⟩ := exists_represents (a := a) haddressable input
  constructor
  · rintro ⟨w, hruns, rfl⟩
    obtain ⟨t, hreaches, ht⟩ := hruns.reaches hd hscoped.scoped_body hbody hm
    apply (hstart.trans hreaches).halts
    exact ⟨0, t, rfl, (Machine.atHalt_iff ht.pc).2 hhalt, ht.output⟩
  · rintro ⟨n, hhalts⟩
    obtain ⟨k, _, hhalts⟩ := hhalts.of_reaches hstart
    obtain ⟨w, t, hruns, hreaches, ht⟩ :=
      Statement.exists_runs hd hscoped.scoped_body hbody hm hhalts
    obtain ⟨l, _, hhalts⟩ := hhalts.of_reaches hreaches
    refine ⟨w, hruns, ?_⟩
    rw [← ht.output]
    exact hhalts.output_eq ((Machine.atHalt_iff ht.pc).2 hhalt)

end Program

/--
What a compiled program writes is what the program means that the tokens up to the first period
spell: it terminates on an input with an output exactly if the machine, started on the code, gets to
the instruction that halts with this output, whatever the operations compute.
-/
theorem outputs_iff_halts_of_compile {tokens : List Token} {limits : Limits} {p : TargetProgram}
    (hlength : tokens.length ≤ 715827880) (h : (compile tokens limits).result = .ok p) :
    ∃ program : Program,
      (∀ other : Program, other.SpelledBy (Token.throughPeriod tokens) ↔ other = program) ∧
        ∀ (a : Arithmetic) (input output : List Word),
          program.Outputs a input output ↔ (Machine.start input).Halts a p.code output := by
  obtain ⟨program, hspelled, hscoped, haddressable, rfl⟩ := exists_program_of_compile hlength h
  refine ⟨program, hspelled, ?_⟩
  intro a input output
  exact Program.outputs_iff_halts hscoped haddressable input output

theorem outputs_countdown :
    Program.countdown.spelling.length ≤ 715827880 ∧
      (compile Program.countdown.spelling ⟨2, 16, 29⟩).result = .ok Program.countdown.target ∧
        Program.countdown.Outputs
          ⟨fun operation x y =>
            match operation with
            | .sub => some (x - y)
            | .gtr => some (if y < x then 1 else 0)
            | _ => none, fun _ => none⟩ [2] [2, 1] := by
  -- From 2 the countdown writes 2 and 1, where subtraction and comparison are as usual.
  have hlength : Program.countdown.spelling.length ≤ 715827880 := by decide
  obtain ⟨program, hspelled, hpreserved⟩ := outputs_iff_halts_of_compile hlength compile_countdown
  have hcountdown := (hspelled Program.countdown).1 (by decide)
  subst hcountdown
  refine ⟨hlength, compile_countdown, (hpreserved _ _ _).2 ⟨30, ?_⟩⟩
  exact ⟨_, rfl, rfl, rfl⟩

end PL0
