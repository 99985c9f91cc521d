import PL0.Proofs.Syntax.Basic
import PL0.Session
import Mathlib.Data.List.Nodup

/-!
This module contains the static meaning of names: the symbols that declarations give rise to, what a
name is bound to in their scope, and when the names of a program are used properly. As long as no
name is declared twice, a symbol table that holds the declared symbols finds what the scope says.
-/

namespace PL0

inductive Binding where
  | const (value : Word)
  | var (location : Location)
  deriving DecidableEq, Repr

abbrev Scope := String → Option Binding

/-- Where the variable with the given name is; arbitrary if the name is not one of a variable. -/
def Scope.location (scope : Scope) (name : String) : Location :=
  match scope name with
  | some (.var location) => location
  | _ => ⟨0, 0⟩

theorem Scope.location_eq {scope : Scope} {name : String} {location : Location}
    (h : scope name = some (.var location)) : scope.location name = location := by
  simp [Scope.location, h]

def Symbol.binding (symbol : Symbol) : Binding :=
  match symbol.kind with
  | .const => .const symbol.value
  | .var => .var symbol.location

theorem Symbol.location_of_level {symbol : Symbol} (h : symbol.level = blockLevel) :
    symbol.location = ⟨0, symbol.address⟩ := by
  rw [location, h, Int32.sub_self]

theorem Symbol.answersTo_iff {symbol : Symbol} {name : String} :
    symbol.answersTo name ↔ symbol.marked = false ∧ symbol.name = name := by
  simp [answersTo]

def SymbolTable.scope (table : SymbolTable) : Scope :=
  fun name => (table.find? name).map Symbol.binding

namespace Declarations

def names (d : Declarations) : List String :=
  d.consts.map (·.1) ++ d.vars

def constantSymbols (marked : Bool) (consts : List (String × Word)) : List Symbol :=
  consts.map fun constant => ⟨.const, constant.1, constant.2, 0, 0, marked⟩

/-- Variables take one place in the frame each, from the given one on. -/
def variableSymbols (marked : Bool) (start : Nat) (vars : List String) : List Symbol :=
  vars.mapIdx fun i name => ⟨.var, name, 0, 0, Int32.ofNat (start + i), marked⟩

def symbols (d : Declarations) (marked : Bool) : List Symbol :=
  constantSymbols marked d.consts ++ variableSymbols marked 3 d.vars

def scope (d : Declarations) : Scope := fun name =>
  match d.consts.lookup name with
  | some value => some (.const value)
  | none => (d.vars.idxOf? name).map fun i => .var ⟨0, Int32.ofNat (3 + i)⟩

theorem variableSymbols_cons (marked : Bool) (start : Nat) (name : String)
    (rest : List String) :
    variableSymbols marked start (name :: rest) =
      ⟨.var, name, 0, 0, Int32.ofNat start, marked⟩ :: variableSymbols marked (start + 1) rest := by
  simp [variableSymbols, Nat.add_assoc, Nat.add_comm 1]

theorem map_name_variableSymbols (marked : Bool) (start : Nat) (vars : List String) :
    (variableSymbols marked start vars).map (·.name) = vars := by
  induction vars generalizing start with
  | nil => rfl
  | cons name rest ih => rw [variableSymbols_cons, List.map_cons, ih]

theorem map_name_constantSymbols (marked : Bool) (consts : List (String × Word)) :
    (constantSymbols marked consts).map (·.name) = consts.map (·.1) := by
  simp [constantSymbols]

theorem map_name_symbols (d : Declarations) (marked : Bool) :
    (d.symbols marked).map (·.name) = d.names := by
  rw [symbols, List.map_append, map_name_constantSymbols, map_name_variableSymbols, names]

theorem map_mark_variableSymbols (start : Nat) (vars : List String) :
    (variableSymbols false start vars).map Symbol.mark = variableSymbols true start vars := by
  induction vars generalizing start with
  | nil => rfl
  | cons name rest ih =>
    rw [variableSymbols_cons, variableSymbols_cons, List.map_cons, ih]
    rfl

theorem map_mark_symbols (d : Declarations) :
    (d.symbols false).map Symbol.mark = d.symbols true := by
  rw [symbols, symbols, List.map_append, map_mark_variableSymbols, constantSymbols,
    constantSymbols, List.map_map]
  rfl

theorem mem_symbols_iff {d : Declarations} {marked : Bool} {symbol : Symbol} :
    symbol ∈ d.symbols marked ↔
      (∃ constant ∈ d.consts, symbol = ⟨.const, constant.1, constant.2, 0, 0, marked⟩) ∨
        ∃ i name, d.vars[i]? = some name ∧
          symbol = ⟨.var, name, 0, 0, Int32.ofNat (3 + i), marked⟩ := by
  simp only [symbols, constantSymbols, variableSymbols, List.mem_append, List.mem_map,
    List.mem_mapIdx, List.getElem?_eq_some_iff]
  apply or_congr
  · simp [eq_comm]
  · constructor
    · rintro ⟨i, hi, rfl⟩
      exact ⟨i, _, ⟨hi, rfl⟩, rfl⟩
    · rintro ⟨i, name, ⟨hi, rfl⟩, rfl⟩
      exact ⟨i, hi, rfl⟩

theorem marked_of_mem_symbols (d : Declarations) (marked : Bool) :
    ∀ symbol ∈ d.symbols marked, symbol.marked = marked := by
  intro symbol hsymbol
  rcases mem_symbols_iff.1 hsymbol with ⟨_, _, rfl⟩ | ⟨_, _, _, rfl⟩ <;> rfl

theorem scope_eq_const_iff {d : Declarations} (h : d.names.Nodup) {name : String} {value : Word} :
    d.scope name = some (.const value) ↔ (name, value) ∈ d.consts := by
  have hconsts : (d.consts.map (·.1)).Nodup := (List.nodup_append.1 h).1
  unfold scope
  split
  · next other hlookup =>
    obtain ⟨before, behind, hsplit, _⟩ := List.lookup_eq_some_iff.1 hlookup
    have hother : (name, other) ∈ d.consts := by simp [hsplit]
    simp only [Option.some.injEq, Binding.const.injEq]
    constructor
    · rintro rfl
      exact hother
    · intro hvalue
      have := List.inj_on_of_nodup_map hconsts hother hvalue rfl
      simpa using this
  · next hlookup =>
    constructor
    · intro hvar
      simp at hvar
    · intro hvalue
      have := List.lookup_eq_none_iff.1 hlookup _ hvalue
      simp at this

theorem scope_eq_var_iff {d : Declarations} (h : d.names.Nodup) {name : String}
    {location : Location} :
    d.scope name = some (.var location) ↔
      ∃ i, d.vars[i]? = some name ∧ location = ⟨0, Int32.ofNat (3 + i)⟩ := by
  have hvars : d.vars.Nodup := (List.nodup_append.1 h).2.1
  unfold scope
  split
  · next value hlookup =>
    obtain ⟨before, behind, hsplit, _⟩ := List.lookup_eq_some_iff.1 hlookup
    have hconst : name ∈ d.consts.map (·.1) := by simp [hsplit]
    constructor
    · intro hvar
      simp at hvar
    · rintro ⟨i, hi, _⟩
      -- The name would be one of a constant and of a variable.
      have hne := (List.nodup_append.1 h).2.2 _ hconst _ (List.mem_of_getElem? hi)
      exact absurd rfl hne
  · next hlookup =>
    simp only [Option.map_eq_some_iff, Binding.var.injEq, List.idxOf?_eq_some_iff]
    constructor
    · rintro ⟨i, ⟨hi, hname, _⟩, rfl⟩
      exact ⟨i, by rw [List.getElem?_eq_getElem hi, hname], rfl⟩
    · rintro ⟨i, hi, rfl⟩
      obtain ⟨hlt, hname⟩ := List.getElem?_eq_some_iff.1 hi
      refine ⟨i, ⟨hlt, hname, ?_⟩, rfl⟩
      intro j hj hsame
      have := (List.Nodup.getElem_inj_iff hvars).1 (hsame.trans hname.symm)
      omega

theorem scope_eq_some_iff {d : Declarations} (h : d.names.Nodup) {name : String}
    {binding : Binding} :
    d.scope name = some binding ↔
      ∃ symbol ∈ d.symbols false, symbol.name = name ∧ symbol.binding = binding := by
  simp only [mem_symbols_iff]
  cases binding with
  | const value =>
    rw [scope_eq_const_iff h]
    constructor
    · intro hmem
      exact ⟨_, .inl ⟨_, hmem, rfl⟩, rfl, rfl⟩
    · rintro ⟨symbol, ⟨constant, hmem, rfl⟩ | ⟨i, other, hi, rfl⟩, rfl, hbinding⟩
      · cases hbinding
        exact hmem
      · cases hbinding
  | var location =>
    rw [scope_eq_var_iff h]
    constructor
    · rintro ⟨i, hi, rfl⟩
      refine ⟨_, .inr ⟨i, name, hi, rfl⟩, rfl, ?_⟩
      exact congrArg Binding.var (Symbol.location_of_level rfl)
    · rintro ⟨symbol, ⟨constant, hmem, rfl⟩ | ⟨i, other, hi, rfl⟩, rfl, hbinding⟩
      · cases hbinding
      · cases hbinding
        exact ⟨i, hi, Symbol.location_of_level rfl⟩

theorem isSome_scope_iff {d : Declarations} {name : String} :
    (d.scope name).isSome ↔ name ∈ d.names := by
  unfold scope names
  split
  · next value hlookup =>
    obtain ⟨before, behind, hsplit, _⟩ := List.lookup_eq_some_iff.1 hlookup
    simp [hsplit]
  · next hlookup =>
    have hnot : name ∉ d.consts.map (·.1) := by
      intro hmem
      obtain ⟨constant, hconstant, rfl⟩ := List.mem_map.1 hmem
      simpa using List.lookup_eq_none_iff.1 hlookup _ hconstant
    rw [Option.isSome_map, List.isSome_idxOf?, List.mem_append, or_iff_right hnot]

end Declarations

namespace SymbolTable

theorem find?_eq_some_iff_mem {table : SymbolTable} (h : (table.newest.map (·.name)).Nodup)
    {name : String} {symbol : Symbol} :
    table.find? name = some symbol ↔ symbol ∈ table.newest ∧ symbol.answersTo name := by
  unfold find?
  constructor
  · intro hfind
    have hanswers := List.find?_some hfind
    exact ⟨List.mem_of_find?_eq_some hfind, hanswers⟩
  · rintro ⟨hmem, hanswers⟩
    cases hfind : table.newest.find? (·.answersTo name) with
    | none => exact absurd hanswers (List.find?_eq_none.1 hfind _ hmem)
    | some other =>
      have hother := List.find?_some hfind
      rw [Symbol.answersTo_iff] at hanswers hother
      rw [List.inj_on_of_nodup_map h hmem (List.mem_of_find?_eq_some hfind)]
      rw [hanswers.2, hother.2]

theorem scope_eq {table : SymbolTable} {d : Declarations} (h : d.names.Nodup)
    (htable : table.newest = (d.symbols false).reverse) : table.scope = d.scope := by
  have hnames : (table.newest.map (·.name)).Nodup := by
    rw [htable, List.map_reverse, List.nodup_reverse, d.map_name_symbols]
    exact h
  have hmarked := d.marked_of_mem_symbols false
  funext name
  apply Option.ext
  intro binding
  rw [Declarations.scope_eq_some_iff h]
  simp only [scope, Option.map_eq_some_iff, find?_eq_some_iff_mem hnames, htable,
    List.mem_reverse]
  constructor
  · rintro ⟨symbol, ⟨hmem, hanswers⟩, hbinding⟩
    rw [Symbol.answersTo_iff] at hanswers
    exact ⟨symbol, hmem, hanswers.2, hbinding⟩
  · rintro ⟨symbol, hmem, hname, hbinding⟩
    refine ⟨symbol, ⟨hmem, ?_⟩, hbinding⟩
    rw [Symbol.answersTo_iff]
    exact ⟨hmarked symbol hmem, hname⟩

end SymbolTable

/--
No name is declared twice, every name used as a factor is declared, and every name that is assigned
or read is that of a variable.
-/
structure Program.WellScoped (program : Program) : Prop where
  distinct : program.declarations.names.Nodup
  declared : ∀ name ∈ program.body.used, name ∈ program.declarations.names
  assignable : ∀ name ∈ program.body.assigned, name ∈ program.declarations.vars

end PL0
