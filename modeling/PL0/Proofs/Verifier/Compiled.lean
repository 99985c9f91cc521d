import PL0.Proofs.Compilation
import PL0.Proofs.Verifier.Basic

/-!
This module contains the proof that the code of every compiled program passes the verifier. The
depth of the stack is the one that the instructions before leave behind, taken in the order of the
code: a branch is taken only where nothing but the frame is on the stack, so that all ways agree on
it.
-/

namespace PL0

/-- The instructions of compiled code that the machine goes on from to the next one only. -/
inductive Instruction.Plain (p : TargetProgram) (frame : Nat) : Instruction → Prop where
  | literal (x : Word) : Plain p frame (.literal x)
  | operate (operation : Operation) : Plain p frame (.operate operation)
  | load {location : Location} (hlevels : location.levels = 0)
      (h : p.HasVariable frame location.address) : Plain p frame (.load location)
  | store {location : Location} (hlevels : location.levels = 0)
      (h : p.HasVariable frame location.address) : Plain p frame (.store location)
  | reserve (size : Word) : Plain p frame (.reserve size)
  | read : Plain p frame (.system .read)
  | write : Plain p frame (.system .write)

namespace Instruction

variable {p : TargetProgram} {frame : Nat} {depth : Nat → Nat} {i : Nat} {instruction : Instruction}

theorem operands_system (call : SystemCall) : (system call).Operands p frame := by
  constructor <;> simp [system]
  cases call <;> decide

theorem Plain.operands (h : instruction.Plain p frame) : instruction.Operands p frame := by
  cases h with
  | literal x => constructor <;> simp [Instruction.literal]
  | operate operation =>
    constructor <;> simp [Instruction.operate]
    cases operation <;> decide
  | load hlevels h =>
    constructor <;> simp [Instruction.load, hlevels]
    exact h
  | store hlevels h =>
    constructor <;> simp [Instruction.store, hlevels]
    exact h
  | reserve size => constructor <;> simp [Instruction.reserve]
  | read => exact operands_system .read
  | write => exact operands_system .write

theorem Plain.isBranch (h : instruction.Plain p frame) : instruction.op.isBranch = false := by
  cases h <;> rfl

theorem Plain.ne_halt (h : instruction.Plain p frame) : instruction ≠ .system .halt := by
  cases h <;> simp [Instruction.literal, Instruction.operate, Instruction.load, Instruction.store,
    Instruction.reserve, system, SystemCall.code]

theorem Operands.passes (h : instruction.Operands p frame)
    (hbranch : instruction.op.isBranch = false) (hhalt : instruction ≠ .system .halt)
    (hnext : i + 1 < p.code.length)
    (hdepth : depth (i + 1) + instruction.pops = depth i + instruction.pushes)
    (hpop : 0 < instruction.pops → frame + instruction.pops ≤ depth i) :
    instruction.Passes p frame depth i where
  operands := h
  branch h := by simp [hbranch] at h
  edge := by
    rintro j (⟨rfl, _⟩ | ⟨h, _⟩)
    · exact ⟨hnext, hdepth⟩
    · simp [hbranch] at h
  pop := hpop
  halt h := absurd h hhalt

theorem ne_halt_of_isBranch (h : instruction.op.isBranch = true) :
    instruction ≠ .system .halt := by
  rintro rfl
  cases h

theorem passes_branch {j : Nat} {target : Word} (htarget : target.toInt = 3 * j) (hij : i < j)
    (hj : j < p.code.length) (hdepth : depth i = frame + 1) (hnext : depth (i + 1) = frame)
    (hthere : depth j = frame) : (branch target).Passes p frame depth i where
  operands := by constructor <;> simp [branch]
  branch _ := ⟨j, hj, htarget, fun _ => hij, by simp [branch], fun _ => hthere⟩
  edge := by
    rintro k (⟨rfl, _⟩ | ⟨_, hk⟩)
    · exact ⟨Nat.lt_of_le_of_lt hij hj, by rw [hnext, hdepth]; rfl⟩
    · have hkj : (3 * k : Int) = 3 * j := hk.symm.trans htarget
      obtain rfl : k = j := by omega
      exact ⟨hj, by rw [hthere, hdepth]; rfl⟩
  pop _ := Nat.le_of_eq hdepth.symm
  halt h := absurd h (ne_halt_of_isBranch rfl)

theorem passes_jump {j : Nat} {target : Word} (htarget : target.toInt = 3 * j)
    (hj : j < p.code.length) (hback : i ≠ 0 → j < i) (hdepth : depth j = depth i)
    (hframe : i ≠ 0 → depth j = frame) : (jump target).Passes p frame depth i where
  operands := by constructor <;> simp [jump]
  branch _ := ⟨j, hj, htarget, by simp [jump], fun _ => hback, hframe⟩
  edge := by
    rintro k (⟨_, hop, _⟩ | ⟨_, hk⟩)
    · exact absurd rfl hop
    · have hkj : (3 * k : Int) = 3 * j := hk.symm.trans htarget
      obtain rfl : k = j := by omega
      exact ⟨hj, congrArg (· + 0) hdepth⟩
  pop h := absurd h (Nat.lt_irrefl 0)
  halt h := absurd h (ne_halt_of_isBranch rfl)

theorem passes_halt (hdepth : depth i = frame) : (system .halt).Passes p frame depth i where
  operands := operands_system .halt
  branch h := absurd h Bool.false_ne_true
  edge := by
    rintro j (⟨_, _, hhalt⟩ | ⟨hbranch, _⟩)
    · exact absurd rfl hhalt
    · cases hbranch
  pop h := absurd h (Nat.lt_irrefl 0)
  halt _ := hdepth

end Instruction

/-- The depth of the stack before the instruction at index `i`, as all instructions before it leave
it when they are taken one after the other. -/
def depthBefore (code : List Instruction) (i : Nat) : Nat :=
  (code.take i).foldl (fun depth instruction => depth + instruction.pushes - instruction.pops) 0

theorem depthBefore_succ {code : List Instruction} {i : Nat} {instruction : Instruction}
    (h : code[i]? = some instruction) :
    depthBefore code (i + 1) = depthBefore code i + instruction.pushes - instruction.pops := by
  rw [depthBefore, List.take_add_one, h, List.foldl_append]
  rfl

/-- The instructions from index `i` up to index `j` pass, there is none among them that halts, and
the stack has the given depth behind them. -/
structure PassesTo (p : TargetProgram) (frame i j d : Nat) : Prop where
  depth : depthBefore p.code j = d
  passes {k : Nat} {instruction : Instruction} (hi : i ≤ k) (hj : k < j)
    (h : p.code[k]? = some instruction) :
    instruction.Passes p frame (depthBefore p.code) k ∧ instruction ≠ .system .halt

namespace PassesTo

variable {p : TargetProgram} {frame i j k d d' : Nat} {instruction : Instruction}

theorem refl (h : depthBefore p.code i = d) : PassesTo p frame i i d where
  depth := h
  passes hi hj := absurd hj (Nat.not_lt_of_le hi)

theorem trans (h : PassesTo p frame i j d) (h' : PassesTo p frame j k d') :
    PassesTo p frame i k d' where
  depth := h'.depth
  passes {l} _ hi hk hl := by
    rcases Nat.lt_or_ge l j with hj | hj
    · exact h.passes hi hj hl
    · exact h'.passes hj hk hl

theorem single (h : p.code[i]? = some instruction) (hd : depthBefore p.code (i + 1) = d)
    (hpasses : instruction.Passes p frame (depthBefore p.code) i)
    (hhalt : instruction ≠ .system .halt) : PassesTo p frame i (i + 1) d where
  depth := hd
  passes {k} _ hi hk hl := by
    have hki : k = i := by omega
    subst hki
    rw [h] at hl
    cases hl
    exact ⟨hpasses, hhalt⟩

theorem plain (h : PassesTo p frame i j d) (hcode : p.code[j]? = some instruction)
    (hplain : instruction.Plain p frame) (hnext : j + 1 < p.code.length)
    (hpop : 0 < instruction.pops → frame + instruction.pops ≤ d)
    (hd : d' + instruction.pops = d + instruction.pushes) : PassesTo p frame i (j + 1) d' := by
  have hsucc : depthBefore p.code (j + 1) = d' := by
    rw [depthBefore_succ hcode, h.depth, ← hd, Nat.add_sub_cancel]
  apply h.trans (single hcode hsucc _ hplain.ne_halt)
  apply hplain.operands.passes hplain.isBranch hplain.ne_halt hnext
  · rw [hsucc, h.depth, hd]
  · rw [h.depth]
    exact hpop

theorem operate {operation : Operation} (h : PassesTo p frame i j (d + 2))
    (hcode : p.code[j]? = some (.operate operation)) (hoperation : operation ≠ .even)
    (hnext : j + 1 < p.code.length) (hframe : frame ≤ d) : PassesTo p frame i (j + 1) (d + 1) := by
  have hpops := Instruction.pops_operate hoperation
  apply h.plain hcode (.operate operation) hnext
  · intro _
    rw [hpops]
    omega
  · rw [hpops]
    rfl

theorem depth_branch {target : Word} (h : PassesTo p frame i j (frame + 1))
    (hcode : p.code[j]? = some (.branch target)) : depthBefore p.code (j + 1) = frame := by
  rw [depthBefore_succ hcode, h.depth]
  rfl

theorem branch {target : Word} (h : PassesTo p frame i j (frame + 1))
    (hcode : p.code[j]? = some (.branch target)) (htarget : target.toInt = 3 * k) (hjk : j < k)
    (hk : k < p.code.length) (hd : depthBefore p.code k = frame) :
    PassesTo p frame i (j + 1) frame := by
  have hnext := h.depth_branch hcode
  exact h.trans (single hcode hnext
    (Instruction.passes_branch htarget hjk hk h.depth hnext hd)
    (Instruction.ne_halt_of_isBranch rfl))

theorem jump {target : Word} (h : PassesTo p frame i j frame)
    (hcode : p.code[j]? = some (.jump target)) (htarget : target.toInt = 3 * k) (hkj : k < j)
    (hj : j < p.code.length) (hd : depthBefore p.code k = frame) :
    PassesTo p frame i (j + 1) frame := by
  have hnext := depthBefore_succ hcode
  rw [h.depth] at hnext
  refine h.trans (single hcode hnext (Instruction.passes_jump htarget ?_ ?_ ?_ ?_)
    (Instruction.ne_halt_of_isBranch rfl))
  · exact Nat.lt_trans hkj hj
  · exact fun _ => hkj
  · rw [hd, h.depth]
  · exact fun _ => hd

end PassesTo

section Trees

variable {p : TargetProgram} {frame : Nat} {scope : Scope} {i d : Nat}

/-- All variables of the scope have their place in the frame, and none is on another level. -/
def TargetProgram.Provides (p : TargetProgram) (frame : Nat) (scope : Scope) : Prop :=
  ∀ (name : String) (location : Location), scope name = some (.var location) →
    location.levels = 0 ∧ p.HasVariable frame location.address

theorem Binding.plain_fetch {name : String} {binding : Binding} (hscope : p.Provides frame scope)
    (hname : scope name = some binding) : binding.fetch.Plain p frame := by
  cases binding with
  | const value => exact .literal value
  | var location =>
    obtain ⟨hlevels, hvariable⟩ := hscope name location hname
    exact .load hlevels hvariable

theorem Binding.pops_fetch (binding : Binding) : binding.fetch.pops = 0 := by
  cases binding <;> rfl

theorem Binding.pushes_fetch (binding : Binding) : binding.fetch.pushes = 1 := by
  cases binding <;> rfl

theorem Expression.passesTo {level : Level} {e : Expression level} (hscope : p.Provides frame scope)
    (h : e.Scoped scope) (hcode : CodeAt p.code i (e.code scope))
    (hlt : i + e.size < p.code.length) (hd : depthBefore p.code i = d) (hframe : frame ≤ d) :
    PassesTo p frame i (i + e.size) (d + 1) := by
  induction e generalizing i d with
  | number value =>
    exact (PassesTo.refl hd).plain hcode.1 (.literal value) hlt (absurd · (Nat.lt_irrefl 0)) rfl
  | ident name =>
    obtain ⟨binding, hname⟩ := scoped_ident_iff.1 h
    rw [code, hname] at hcode
    apply (PassesTo.refl hd).plain hcode.1 (binding.plain_fetch hscope hname) hlt
    · rw [binding.pops_fetch]
      exact (absurd · (Nat.lt_irrefl 0))
    · rw [binding.pops_fetch, binding.pushes_fetch]
  | parens inner ih => exact ih h hcode hlt hd hframe
  | single operand ih => exact ih h hcode hlt hd hframe
  | binary left operator right ihl ihr =>
    rw [scoped_binary_iff] at h
    rw [code, CodeAt.append_iff, CodeAt.append_iff, length_code h.1, length_code h.2] at hcode
    obtain ⟨hcodel, hcoder, hoperate⟩ := hcode
    rw [size] at hlt
    have hleft := ihl h.1 hcodel (by omega) hd hframe
    have hright := ihr h.2 hcoder (by omega) hleft.depth (by omega)
    rw [size, ← Nat.add_assoc, ← Nat.add_assoc]
    exact (hleft.trans hright).operate hoperate.1 operator.operation_ne_even (by omega) hframe

theorem Condition.passesTo {c : Condition} (hscope : p.Provides frame scope) (h : c.Scoped scope)
    (hcode : CodeAt p.code i (c.code scope)) (hlt : i + c.size < p.code.length)
    (hd : depthBefore p.code i = frame) : PassesTo p frame i (i + c.size) (frame + 1) := by
  cases c with
  | even operand =>
    rw [code, CodeAt.append_iff, Expression.length_code h] at hcode
    rw [size] at hlt
    have hoperand := Expression.passesTo hscope h hcode.1 (by omega) hd (Nat.le_refl frame)
    exact hoperand.plain hcode.2.1 (.operate .even) (by omega) (fun _ => Nat.le_refl _) rfl
  | compare left comparison right =>
    rw [scoped_compare_iff] at h
    rw [code, CodeAt.append_iff, CodeAt.append_iff, Expression.length_code h.1,
      Expression.length_code h.2] at hcode
    obtain ⟨hcodel, hcoder, hoperate⟩ := hcode
    rw [size] at hlt
    have hleft := Expression.passesTo hscope h.1 hcodel (by omega) hd (Nat.le_refl frame)
    have hright := Expression.passesTo hscope h.2 hcoder (by omega) hleft.depth (by omega)
    rw [size, ← Nat.add_assoc, ← Nat.add_assoc]
    exact (hleft.trans hright).operate hoperate.1 comparison.operation_ne_even (by omega)
      (Nat.le_refl frame)

theorem Statement.passesTo {extent : Extent} {s : Statement extent}
    (hscope : p.Provides frame scope) (haddress : 3 * p.code.length < 2147483648)
    (h : s.Scoped scope) (hcode : CodeAt p.code i (s.code scope i))
    (hlt : i + s.size < p.code.length) (hd : depthBefore p.code i = frame) :
    PassesTo p frame i (i + s.size) frame := by
  have htarget {j : Nat} (hj : j < p.code.length) : (Int32.ofNat (3 * j)).toInt = 3 * j :=
    Int32.toInt_ofNat_of_lt (by omega)
  induction s generalizing i with
  | empty => exact .refl hd
  | assign name value =>
    rw [scoped_assign_iff] at h
    obtain ⟨hscoped, location, hname⟩ := h
    obtain ⟨hlevels, hvariable⟩ := hscope name location hname
    rw [code, CodeAt.append_iff, Expression.length_code hscoped, Scope.location_eq hname] at hcode
    rw [size] at hlt
    have hvalue := value.passesTo hscope hscoped hcode.1 (by omega) hd (Nat.le_refl frame)
    exact hvalue.plain hcode.2.1 (.store hlevels hvariable) hlt
      (fun _ => Nat.le_refl _) rfl
  | read name =>
    obtain ⟨location, hname⟩ := scoped_read_iff.1 h
    obtain ⟨hlevels, hvariable⟩ := hscope name location hname
    rw [code, Scope.location_eq hname] at hcode
    rw [size] at hlt
    have hread : PassesTo p frame i (i + 1) (frame + 1) :=
      (PassesTo.refl hd).plain hcode.1 .read (by omega) (absurd · (Nat.lt_irrefl 0)) rfl
    exact hread.plain hcode.2.1 (.store hlevels hvariable) hlt
      (fun _ => Nat.le_refl _) rfl
  | write value =>
    rw [scoped_write_iff] at h
    rw [code, CodeAt.append_iff, Expression.length_code h] at hcode
    rw [size] at hlt
    have hvalue := value.passesTo hscope h hcode.1 (by omega) hd (Nat.le_refl frame)
    exact hvalue.plain hcode.2.1 .write hlt (fun _ => Nat.le_refl _) rfl
  | compound body ih => exact ih h hcode hlt hd
  | ifThen condition body ih =>
    rw [scoped_ifThen_iff] at h
    rw [code, CodeAt.append_iff, Condition.length_code h.1] at hcode
    obtain ⟨hcodec, hbranch, hcodeb⟩ := hcode
    rw [size, ← Nat.add_assoc, ← Nat.add_assoc] at hlt ⊢
    have hcondition := condition.passesTo hscope h.1 hcodec (by omega) hd
    -- The branch passes only if the depth behind the body is known.
    have hbody := ih h.2 hcodeb hlt (hcondition.depth_branch hbranch)
    exact (hcondition.branch hbranch (htarget hlt) (by omega) hlt hbody.depth).trans hbody
  | whileDo condition body ih =>
    rw [scoped_whileDo_iff] at h
    rw [code, CodeAt.append_iff, Condition.length_code h.1] at hcode
    obtain ⟨hcodec, hbranch, hcodeb⟩ := hcode
    rw [CodeAt.append_iff, length_code h.2] at hcodeb
    obtain ⟨hcodeb, hjump, _⟩ := hcodeb
    have hend : i + (whileDo condition body).size = i + condition.size + 1 + body.size + 1 := by
      rw [size]
      omega
    rw [hend] at hlt ⊢
    have hcondition := condition.passesTo hscope h.1 hcodec (by omega) hd
    have hbody := ih h.2 hcodeb (by omega) (hcondition.depth_branch hbranch)
    have hloop := hbody.jump hjump (htarget (by omega)) (by omega) (by omega) hd
    have hbehind : i + condition.size + body.size + 2 = i + condition.size + 1 + body.size + 1 := by
      omega
    rw [hbehind] at hbranch
    exact (hcondition.branch hbranch (htarget hlt) (by omega) hlt hloop.depth).trans hloop
  | last statement ih => exact ih h hcode hlt hd
  | followed first rest ihf ihr =>
    rw [scoped_followed_iff] at h
    rw [code, CodeAt.append_iff, length_code h.1] at hcode
    rw [size] at hlt
    have hfirst := ihf h.1 hcode.1 (by omega) hd
    have hrest := ihr h.2 hcode.2 (by omega) hfirst.depth
    rw [size, ← Nat.add_assoc]
    exact hfirst.trans hrest

end Trees

namespace Declarations

theorem map_address_variableSymbols (marked : Bool) (start : Nat) (vars : List String) :
    (variableSymbols marked start vars).map (·.address) =
      (List.range vars.length).map fun i => Int32.ofNat (start + i) := by
  apply List.ext_getElem
  · simp [variableSymbols]
  · simp [variableSymbols]

theorem nodup_map_address_variableSymbols (marked : Bool) {start : Nat} {vars : List String}
    (h : start + vars.length < 2147483648) :
    ((variableSymbols marked start vars).map (·.address)).Nodup := by
  rw [map_address_variableSymbols]
  apply List.Nodup.map_on _ List.nodup_range
  intro i hi j hj hij
  rw [List.mem_range] at hi hj
  have haddress := congrArg Word.index hij
  rw [Word.index_ofNat (by omega), Word.index_ofNat (by omega)] at haddress
  omega

theorem countP_symbols {d : Declarations} (h : 3 + d.vars.length < 2147483648) (marked : Bool)
    {i : Nat} (hi : i < d.vars.length) :
    (d.symbols marked).countP
      (fun symbol => symbol.kind = .var ∧ symbol.address = Int32.ofNat (3 + i)) = 1 := by
  have hconsts : (constantSymbols marked d.consts).countP
      (fun symbol => symbol.kind = .var ∧ symbol.address = Int32.ofNat (3 + i)) = 0 := by
    simp [constantSymbols, List.countP_eq_zero]
  have hvars : (variableSymbols marked 3 d.vars).countP
      (fun symbol => symbol.kind = .var ∧ symbol.address = Int32.ofNat (3 + i)) =
        ((variableSymbols marked 3 d.vars).map (·.address)).count (Int32.ofNat (3 + i)) := by
    rw [List.count_eq_countP, List.countP_map]
    apply List.countP_congr
    intro symbol hsymbol
    have hkind : symbol.kind = .var := by
      obtain ⟨_, _, rfl⟩ := List.mem_mapIdx.1 hsymbol
      rfl
    simp [hkind]
  -- The addresses of the variables are counted up and none of them is cut off.
  rw [symbols, List.countP_append, hconsts, hvars, Nat.zero_add]
  apply List.count_eq_one_of_mem (nodup_map_address_variableSymbols marked h)
  rw [map_address_variableSymbols]
  exact List.mem_map_of_mem (List.mem_range.2 hi)

end Declarations

namespace Program

theorem provides {program : Program} (hscoped : program.WellScoped) (h : program.Addressable) :
    program.target.Provides (3 + program.declarations.vars.length) program.declarations.scope := by
  intro name location hname
  obtain ⟨i, hi, rfl⟩ := (Declarations.scope_eq_var_iff hscoped.distinct).1 hname
  have hlt : i < program.declarations.vars.length := (List.getElem?_eq_some_iff.1 hi).1
  have hframe := h.frame
  have haddress : (Int32.ofNat (3 + i)).toInt = ((3 + i : Nat) : Int) :=
    Int32.toInt_ofNat_of_lt (by omega)
  refine ⟨rfl, Declarations.countP_symbols hframe true hlt, ?_, ?_⟩
  · rw [haddress]
    omega
  · rw [haddress]
    omega

theorem passesTo_entry {program : Program} (h : program.Addressable) :
    PassesTo program.target (3 + program.declarations.vars.length) 0 2
      (3 + program.declarations.vars.length) := by
  have hlength : 2 < program.target.code.length := by simp [target, code]
  have hjump : program.target.code[0]? = some (.jump 3) := rfl
  have hreserve : program.target.code[1]? =
      some (.reserve (Int32.ofNat (3 + program.declarations.vars.length))) := rfl
  have hpasses : (Instruction.jump 3).Passes program.target (3 + program.declarations.vars.length)
      (depthBefore program.target.code) 0 :=
    Instruction.passes_jump (j := 1) (by decide) (by omega) (absurd rfl) rfl (absurd rfl)
  have hentry : PassesTo program.target (3 + program.declarations.vars.length) 0 1 0 :=
    .single hjump rfl hpasses (Instruction.ne_halt_of_isBranch rfl)
  apply hentry.plain hreserve (.reserve _) hlength (absurd · (Nat.lt_irrefl 0))
  show _ = 0 + Word.index (Int32.ofNat (3 + program.declarations.vars.length))
  rw [Word.index_ofNat h.frame, Nat.zero_add]
  rfl

theorem verified {program : Program} (hscoped : program.WellScoped) (h : program.Addressable) :
    program.target.Verified (3 + program.declarations.vars.length) (depthBefore program.code) := by
  have hlength : program.target.code.length = 2 + program.body.size + 1 := by
    rw [target, length_code hscoped]
    omega
  have hcode : CodeAt program.target.code 2
      (program.body.code program.declarations.scope 2 ++ [.system .halt]) :=
    (CodeAt.refl program.code).2.2
  rw [CodeAt.append_iff, Statement.length_code hscoped.scoped_body] at hcode
  obtain ⟨hcode, hhalt, _⟩ := hcode
  have hentry := passesTo_entry h
  have hbody := hentry.trans (program.body.passesTo (provides hscoped h) h.code hscoped.scoped_body
    hcode (by omega) hentry.depth)
  refine ⟨⟨_, rfl, Int32.toInt_ofNat_of_lt h.frame⟩, hentry.depth, ?_, ?_⟩
  · intro i
    constructor
    · intro hi
      have hlt := (List.getElem?_eq_some_iff.1 hi).1
      -- Up to the last instruction there is none that halts.
      by_contra hne
      exact (hbody.passes (Nat.zero_le i) (by omega) hi).2 rfl
    · intro hi
      obtain rfl : i = 2 + program.body.size := by omega
      exact hhalt
  · intro i instruction hi
    have hlt := (List.getElem?_eq_some_iff.1 hi).1
    rcases Nat.lt_or_ge i (2 + program.body.size) with hend | hend
    · exact (hbody.passes (Nat.zero_le i) hend hi).1
    · obtain rfl : i = 2 + program.body.size := by omega
      rw [hhalt] at hi
      cases hi
      exact Instruction.passes_halt hbody.depth

end Program

/-- The code of every successful compilation of not too many tokens passes. -/
theorem exists_verified_of_compile {tokens : List Token} {limits : Limits} {p : TargetProgram}
    (hlength : tokens.length ≤ 715827880) (h : (compile tokens limits).result = .ok p) :
    ∃ frame depth, p.Verified frame depth := by
  obtain ⟨program, _, hscoped, haddressable, rfl⟩ := exists_program_of_compile hlength h
  exact ⟨_, _, program.verified hscoped haddressable⟩

theorem exists_verified_countdown :
    Program.countdown.spelling.length ≤ 715827880 ∧
      (compile Program.countdown.spelling ⟨2, 16, 29⟩).result = .ok Program.countdown.target ∧
        ∃ frame depth, Program.countdown.target.Verified frame depth := by
  have hlength : Program.countdown.spelling.length ≤ 715827880 := by decide
  exact ⟨hlength, compile_countdown, exists_verified_of_compile hlength compile_countdown⟩

end PL0
