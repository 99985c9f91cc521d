import PL0.Proofs.Requests
import PL0.Symbol
import Mathlib.Logic.Function.Basic

/-!
This module contains what a symbol table is to those who use it: a map from the names in sight to
their entries. The table itself is only searched and extended; that no name is in sight twice is
nowhere checked, but follows from what can be done with a table.
-/

namespace PL0
namespace SymbolTable

/-- What can be asked of a table. -/
inductive Request where
  | declare (symbol : Symbol)
  | lookup (name : String)
  | get (id : Nat)
  | markAll
  deriving DecidableEq

inductive Answer where
  | declared (result : Except CompileError Nat)
  | found (id : Option Nat)
  | entry (symbol : Option Symbol)
  | marked

def perform (table : SymbolTable) : Request → Answer × SymbolTable
  | .declare symbol =>
    match table.declare symbol with
    | .ok (id, after) => (.declared (.ok id), after)
    | .error error => (.declared (.error error), table)
  | .lookup name => (.found (table.lookup? name), table)
  | .get id => (.entry (table.get? id), table)
  | .markAll => (.marked, table.markAll)

/-- What a request and its answer do to a map from names to entries. -/
def recordName (names : String → Option Nat) : Request × Answer → String → Option Nat
  | (.declare symbol, .declared (.ok id)) => Function.update names symbol.name (some id)
  | (.markAll, _) => fun _ => none
  | _ => names

/-- The entry that was last declared with each name, since the last time that all were marked. -/
def lastDeclared (log : List (Request × Answer)) : String → Option Nat :=
  log.foldl recordName fun _ => none

variable {table after : SymbolTable} {symbol : Symbol} {id : Nat} {name : String}

theorem isSome_lookup? (table : SymbolTable) (name : String) :
    (table.lookup? name).isSome = (table.find? name).isSome := by
  rw [lookup?, Option.isSome_map, find?, List.findIdx?_isSome, List.isSome_find?]

theorem exists_of_lookup? (h : table.lookup? name = some id) :
    ∃ symbol, table.get? id = some symbol ∧ symbol.answersTo name = true := by
  have hsome : (table.find? name).isSome = true := by
    rw [← isSome_lookup?, h]
    rfl
  obtain ⟨symbol, hfind⟩ := Option.isSome_iff_exists.1 hsome
  have hanswers : symbol.answersTo name = true := by
    unfold find? at hfind
    simpa using List.find?_some hfind
  refine ⟨symbol, ?_, hanswers⟩
  rw [← hfind, find?_eq, h]
  rfl

theorem find?_eq_none_iff :
    table.find? name = none ↔ ∀ symbol ∈ table.entries, symbol.answersTo name = false := by
  simp [find?, entries]

theorem lookup?_eq_none_iff :
    table.lookup? name = none ↔ ∀ symbol ∈ table.entries, symbol.answersTo name = false := by
  rw [← find?_eq_none_iff, ← Option.not_isSome_iff_eq_none, ← Option.not_isSome_iff_eq_none,
    isSome_lookup?]

theorem lookup?_declare (h : table.declare symbol = .ok (id, after)) :
    after.lookup? = Function.update table.lookup? symbol.name (some id) := by
  obtain ⟨_, _, rfl, rfl⟩ := declare_eq_ok_iff.1 h
  funext name
  unfold lookup? size
  rw [List.findIdx?_cons, List.length_cons, Nat.add_sub_cancel]
  split
  · next hanswers =>
    have hname : symbol.name = name := by simpa [Symbol.answersTo] using hanswers
    rw [← hname, Function.update_self]
    rfl
  · next hanswers =>
    have hname : name ≠ symbol.name := by
      rintro rfl
      simp [Symbol.answersTo] at hanswers
    rw [Function.update_of_ne hname, Option.map_map]
    congr 1
    funext i
    simp only [Function.comp_apply]
    omega

theorem lookup?_markAll (table : SymbolTable) (name : String) :
    table.markAll.lookup? name = none := by
  rw [lookup?_eq_none_iff, entries_markAll]
  intro symbol hmem
  obtain ⟨_, _, rfl⟩ := List.mem_map.1 hmem
  rfl

theorem get?_declare (h : table.declare symbol = .ok (id, after)) (i : Nat) :
    after.get? i = if i = id then some { symbol with marked := false } else table.get? i := by
  obtain ⟨_, _, hid, _⟩ := declare_eq_ok_iff.1 h
  rw [← length_entries] at hid
  unfold get?
  rw [entries_declare h, List.getElem?_append, hid]
  split
  · next hlt => rw [if_neg (Nat.ne_of_lt hlt)]
  · next hle =>
    split
    · next heq => simp [heq]
    · next hne =>
      have hbehind : [{ symbol with marked := false }].length ≤ i - table.entries.length := by
        rw [List.length_singleton]
        omega
      rw [List.getElem?_eq_none hbehind, List.getElem?_eq_none (Nat.le_of_not_lt hle)]

theorem get?_markAll (table : SymbolTable) (i : Nat) :
    table.markAll.get? i = (table.get? i).map Symbol.mark := by
  simp [get?]

/-- No name is in sight twice. -/
def Unique (table : SymbolTable) : Prop :=
  ∀ (i j : Nat) (s t : Symbol), table.get? i = some s → table.get? j = some t →
    s.marked = false → t.marked = false → s.name = t.name → i = j

theorem Unique.eq_of_answersTo (h : table.Unique) {i j : Nat} {s t : Symbol}
    (hi : table.get? i = some s) (hj : table.get? j = some t) (hs : s.answersTo name = true)
    (ht : t.answersTo name = true) : i = j := by
  simp only [Symbol.answersTo, Bool.and_eq_true, Bool.not_eq_true', beq_iff_eq] at hs ht
  exact h i j s t hi hj hs.1 ht.1 (hs.2.trans ht.2.symm)

theorem Unique.lookup?_eq (h : table.Unique) (name : String) :
    table.lookup? name = table.entries.findIdx? (·.answersTo name) := by
  cases hlookup : table.lookup? name with
  | none =>
    rw [lookup?_eq_none_iff] at hlookup
    exact (List.findIdx?_eq_none_iff.2 hlookup).symm
  | some id =>
    obtain ⟨symbol, hget, hanswers⟩ := exists_of_lookup? hlookup
    cases holdest : table.entries.findIdx? (·.answersTo name) with
    | none =>
      have hnone := List.findIdx?_eq_none_iff.1 holdest symbol (List.mem_of_getElem? hget)
      rw [hanswers] at hnone
      cases hnone
    | some oldest =>
      obtain ⟨hlt, hfirst, _⟩ := List.findIdx?_eq_some_iff_getElem.1 holdest
      have hentry := List.getElem?_eq_getElem hlt
      rw [h.eq_of_answersTo hget hentry hanswers hfirst]

/-- What requests do to a table: they enter a symbol, or mark all, or leave the table as it is. -/
inductive Performs (table : SymbolTable) : Request → Answer → SymbolTable → Prop where
  | declare {symbol : Symbol} {id : Nat} {after : SymbolTable}
      (h : table.declare symbol = .ok (id, after)) :
      Performs table (.declare symbol) (.declared (.ok id)) after
  | markAll : Performs table .markAll .marked table.markAll
  | none {request : Request} {answer : Answer} (hrequest : request ≠ .markAll)
      (hanswer : ∀ id, answer ≠ .declared (.ok id)) : Performs table request answer table

theorem performs_perform (table : SymbolTable) (request : Request) :
    table.Performs request (table.perform request).1 (table.perform request).2 := by
  cases request with
  | declare symbol =>
    simp only [perform]
    split
    · next hdeclare => exact .declare hdeclare
    · exact .none (by simp) (by simp)
  | lookup | get => exact .none (by simp) (by simp [perform])
  | markAll => exact .markAll

theorem recordName_eq_some {names : String → Option Nat} {entry : Request × Answer}
    (h : recordName names entry name = some id) :
    names name = some id ∨
      ∃ symbol, symbol.name = name ∧ entry = (.declare symbol, .declared (.ok id)) := by
  unfold recordName at h
  split at h
  · next symbol id' =>
    by_cases hname : name = symbol.name
    · rw [hname, Function.update_self] at h
      cases h
      exact .inr ⟨symbol, hname.symm, rfl⟩
    · rw [Function.update_of_ne hname] at h
      exact .inl h
  · cases h
  · exact .inl h

section

variable {request : Request} {answer : Answer}

theorem Performs.lookup?_eq (h : table.Performs request answer after) :
    after.lookup? = recordName table.lookup? (request, answer) := by
  cases h with
  | declare hdeclare => exact lookup?_declare hdeclare
  | markAll =>
    funext name
    exact lookup?_markAll table name
  | none hrequest hanswer =>
    unfold recordName
    split
    · next id heq =>
      cases heq
      exact absurd rfl (hanswer id)
    · next heq =>
      cases heq
      exact absurd rfl hrequest
    · rfl

theorem Performs.get?_eq (h : table.Performs request answer after)
    (hget : table.get? id = some symbol) :
    after.get? id =
      some { symbol with marked := symbol.marked || decide (request = .markAll) } := by
  cases h with
  | @declare added place after hdeclare =>
    have hne : id ≠ place := by
      obtain ⟨_, _, rfl, _⟩ := declare_eq_ok_iff.1 hdeclare
      rw [← length_entries]
      exact Nat.ne_of_lt (List.getElem?_eq_some_iff.1 hget).1
    rw [get?_declare hdeclare, if_neg hne, hget]
    simp
  | markAll =>
    rw [get?_markAll, hget]
    simp [Symbol.mark]
  | none hrequest _ => simpa [hrequest] using hget

theorem Performs.get?_of_declared
    (h : table.Performs (.declare symbol) (.declared (.ok id)) after) :
    after.get? id = some { symbol with marked := false } := by
  cases h with
  | declare hdeclare => rw [get?_declare hdeclare, if_pos rfl]
  | none _ hanswer => exact absurd rfl (hanswer id)

theorem Performs.size_le (h : table.Performs request answer after)
    (hle : table.size ≤ table.capacity) : after.size ≤ after.capacity := by
  cases h with
  | declare hdeclare =>
    obtain ⟨_, hlt, _, rfl⟩ := declare_eq_ok_iff.1 hdeclare
    exact hlt
  | markAll =>
    rw [← length_entries, entries_markAll, List.length_map, length_entries]
    exact hle
  | none => exact hle

theorem Performs.capacity_eq (h : table.Performs request answer after) :
    after.capacity = table.capacity := by
  cases h with
  | declare hdeclare =>
    obtain ⟨_, _, _, rfl⟩ := declare_eq_ok_iff.1 hdeclare
    rfl
  | markAll => rfl
  | none => rfl

theorem Performs.unique (h : table.Performs request answer after) (hunique : table.Unique) :
    after.Unique := by
  cases h with
  | @declare added place after hdeclare =>
    have hfresh {i : Nat} {s : Symbol} (hi : table.get? i = some s) (hs : s.marked = false) :
        s.name ≠ added.name := by
      intro hname
      have hnone := (declare_eq_ok_iff.1 hdeclare).1
      have hanswers := find?_eq_none_iff.1 hnone s (List.mem_of_getElem? hi)
      simp [Symbol.answersTo, hs, hname] at hanswers
    intro i j s t hi hj hs ht hname
    rw [get?_declare hdeclare] at hi hj
    split at hi
    · next hplace =>
      split at hj
      · next hplace' => rw [hplace, hplace']
      · cases hi
        exact absurd hname.symm (hfresh hj ht)
    · split at hj
      · cases hj
        exact absurd hname (hfresh hi hs)
      · exact hunique i j s t hi hj hs ht hname
  | markAll =>
    intro i j s t hi _ hs
    rw [get?_markAll] at hi
    obtain ⟨symbol, _, rfl⟩ := Option.map_eq_some_iff.1 hi
    cases hs
  | none => exact hunique

end

theorem lastDeclared_append (log : List (Request × Answer)) (entry : Request × Answer) :
    lastDeclared (log ++ [entry]) = recordName (lastDeclared log) entry := by
  rw [lastDeclared, List.foldl_append]
  rfl

/-- What a table has to do with the log of its requests. -/
structure Faithful (capacity : Nat) (x : Served SymbolTable Request Answer) : Prop where
  capacity_eq : x.state.capacity = capacity
  size_le : x.state.size ≤ capacity
  unique : x.state.Unique
  lookup?_eq : x.state.lookup? = lastDeclared x.log
  /-- All that was ever declared is there. -/
  declared : ∀ {symbol : Symbol} {id : Nat}, (.declare symbol, .declared (.ok id)) ∈ x.log →
    ∃ marked, x.state.get? id = some { symbol with marked := marked }
  /-- What is found now was declared with the name it is found by. -/
  inSight : ∀ {name : String} {id : Nat}, x.state.lookup? name = some id →
    ∃ symbol, symbol.name = name ∧ (.declare symbol, .declared (.ok id)) ∈ x.log
  /-- What was ever found had been declared with the name it was found by. -/
  found : ∀ {name : String} {id : Nat}, (.lookup name, .found (some id)) ∈ x.log →
    ∃ symbol, symbol.name = name ∧ (.declare symbol, .declared (.ok id)) ∈ x.log

namespace Faithful

variable {capacity : Nat} {x : Served SymbolTable Request Answer}

theorem fresh (capacity : Nat) : Faithful capacity (.fresh (empty capacity)) := by
  refine ⟨rfl, Nat.zero_le _, ?_, rfl, ?_, ?_, ?_⟩
  · intro i j s t hi
    simp [Served.fresh, empty, get?, entries] at hi
  · intro symbol id hmem
    cases hmem
  · intro name id hlookup
    cases hlookup
  · intro name id hmem
    cases hmem

theorem serve (h : Faithful capacity x) (request : Request) :
    Faithful capacity (x.serve perform request) := by
  have hperforms := performs_perform x.state request
  have hlookup := hperforms.lookup?_eq
  have hcapacity := hperforms.capacity_eq.trans h.capacity_eq
  refine ⟨hcapacity, ?_, hperforms.unique h.unique, ?_, ?_, ?_, ?_⟩
  · rw [← hcapacity]
    apply hperforms.size_le
    rw [h.capacity_eq]
    exact h.size_le
  · rw [Served.serve, lastDeclared_append, ← h.lookup?_eq]
    exact hlookup
  · intro symbol id hmem
    obtain hold | hnew := List.mem_append.1 hmem
    · obtain ⟨marked, hget⟩ := h.declared hold
      have hafter := hperforms.get?_eq hget
      exact ⟨_, hafter⟩
    · obtain ⟨rfl, hanswer⟩ := Prod.mk.inj (List.mem_singleton.1 hnew)
      rw [← hanswer] at hperforms
      exact ⟨false, hperforms.get?_of_declared⟩
  · intro name id hid
    rw [Served.serve, hlookup] at hid
    obtain hold | ⟨symbol, hname, hentry⟩ := recordName_eq_some hid
    · obtain ⟨symbol, hname, hdeclared⟩ := h.inSight hold
      exact ⟨symbol, hname, List.mem_append_left _ hdeclared⟩
    · refine ⟨symbol, hname, List.mem_append_right _ ?_⟩
      rw [← hentry]
      exact List.mem_singleton_self _
  · intro name id hmem
    obtain hold | hnew := List.mem_append.1 hmem
    · obtain ⟨symbol, hname, hdeclared⟩ := h.found hold
      exact ⟨symbol, hname, List.mem_append_left _ hdeclared⟩
    · obtain ⟨rfl, hanswer⟩ := Prod.mk.inj (List.mem_singleton.1 hnew)
      have hnow : x.state.lookup? name = some id := (Answer.found.inj hanswer).symm
      obtain ⟨symbol, hname, hdeclared⟩ := h.inSight hnow
      exact ⟨symbol, hname, List.mem_append_left _ hdeclared⟩

end Faithful

theorem get?_serveAll {x : Served SymbolTable Request Answer} (requests : List Request)
    (h : x.state.get? id = some symbol) :
    (x.serveAll perform requests).state.get? id =
      some { symbol with marked := symbol.marked || decide (.markAll ∈ requests) } := by
  induction requests generalizing x symbol with
  | nil => simpa using h
  | cons request requests ih =>
    rw [Served.serveAll_cons, ih ((performs_perform x.state request).get?_eq h)]
    simp [Bool.or_assoc, eq_comm]

theorem declare_eq_error_iff {error : CompileError} (hle : table.size ≤ table.capacity) :
    table.declare symbol = .error error ↔
      (table.lookup? symbol.name).isSome = true ∧ error = .fault .duplicateSymbol ∨
        table.lookup? symbol.name = none ∧ table.size = table.capacity ∧
          error = .symbolTableFull table.capacity := by
  rw [isSome_lookup?, ← Option.not_isSome_iff_eq_none, isSome_lookup?]
  unfold declare
  split
  · next hfound => simp [hfound, eq_comm]
  · next hfound =>
    split
    · next hfull => simp [hfound, Nat.le_antisymm hle hfull, eq_comm]
    · next hfree => simp [hfound, Nat.ne_of_lt (Nat.lt_of_not_le hfree)]

/--
Whatever is asked of a table, it is the map from names to the entries last declared. What was
entered stays where it is and stays as it is, but for a mark that is never taken away. A declaration
is refused for nothing but a name in sight, or, without one, for a full table, and then nothing
changes.
-/
theorem faithful_of_requests {capacity : Nat} {requests : List Request}
    {x : Served SymbolTable Request Answer}
    (hx : (Served.fresh (empty capacity)).serveAll perform requests = x) :
    Faithful capacity x ∧
      (∀ name, x.state.lookup? name = x.state.entries.findIdx? (·.answersTo name)) ∧
      (∀ id symbol, x.state.get? id = some symbol → ∀ more,
        (x.serveAll perform more).state.get? id =
          some { symbol with marked := symbol.marked || decide (.markAll ∈ more) }) ∧
      (∀ symbol error, x.state.declare symbol = .error error ↔
        (x.state.lookup? symbol.name).isSome = true ∧ error = .fault .duplicateSymbol ∨
          x.state.lookup? symbol.name = none ∧ x.state.size = capacity ∧
            error = .symbolTableFull capacity) ∧
      (∀ symbol error, x.state.declare symbol = .error error →
        (x.serve perform (.declare symbol)).state = x.state) := by
  have hfaithful : Faithful capacity x := by
    rw [← hx]
    apply Served.serveAll_of_serve (Faithful capacity)
    · intro y request hy
      exact hy.serve request
    · exact .fresh capacity
  refine ⟨hfaithful, hfaithful.unique.lookup?_eq, ?_, ?_, ?_⟩
  · intro id symbol hget more
    exact get?_serveAll more hget
  · intro symbol error
    rw [declare_eq_error_iff (hfaithful.capacity_eq ▸ hfaithful.size_le), hfaithful.capacity_eq]
  · intro symbol error herror
    rw [Served.serve, perform, herror]

/-- A name is declared, goes out of sight, and is declared once more. -/
def redeclaration : List Request :=
  [.declare (.var "x" 3), .lookup "x", .markAll, .declare (.const "x" 7)]

theorem faithful_of_redeclaration :
    ∃ x, (Served.fresh (empty 2)).serveAll perform redeclaration = x ∧ Faithful 2 x ∧
      x.state.lookup? "x" = some 1 ∧
        x.state.get? 0 = some { Symbol.var "x" 3 with marked := true } ∧
          x.state.declare (.var "x" 4) = .error (.fault .duplicateSymbol) ∧
            x.state.declare (.var "y" 4) = .error (.symbolTableFull 2) := by
  refine ⟨_, rfl, ?_⟩
  obtain ⟨hfaithful, _, _, herror, _⟩ :=
    faithful_of_requests (Eq.refl ((Served.fresh (empty 2)).serveAll perform redeclaration))
  refine ⟨hfaithful, by decide, by decide, ?_, ?_⟩
  · exact (herror _ _).2 (.inl ⟨by decide, rfl⟩)
  · exact (herror _ _).2 (.inr ⟨by decide, by decide, rfl⟩)

end SymbolTable
end PL0
