import PL0.Proofs.Move

/-!
This module contains the two phases of a pass. First the names are declared and the frame for them
is reserved, then the statement is translated. No branch is emitted in the first phase, and in the
second one neither a name is declared nor a frame reserved; the names go out of sight with its last
step.
-/

namespace PL0

namespace Pass

theorem step_append {p q : Pass} (h : p.step = .next q) (rest : List Task) :
    step ⟨p.agenda ++ rest, p.session⟩ = .next ⟨q.agenda ++ rest, q.session⟩ := by
  obtain ⟨task, tasks, more, t, hagenda, hperform, rfl⟩ := exists_of_step h
  rw [hagenda, List.cons_append, step_of_ok hperform, List.append_assoc]

theorem run_append {p q q' : Pass} {rest : List Task} {result result' : Except CompileError Unit}
    (hfirst : p.run = (result, q)) (h : run ⟨p.agenda ++ rest, p.session⟩ = (result', q')) :
    (∃ error, result = .error error ∧ result' = .error error ∧
      q' = ⟨q.agenda ++ rest, q.session⟩) ∨
    (result = .ok () ∧ q.agenda = [] ∧ run ⟨rest, q.session⟩ = (result', q')) := by
  induction p using run.induct with
  | case1 p hdone =>
    have hagenda := agenda_of_done hdone
    rw [run_eq_of_done hdone] at hfirst
    cases hfirst
    rw [hagenda] at h
    exact .inr ⟨rfl, hagenda, h⟩
  | case2 p error hfailed =>
    obtain ⟨task, tasks, hagenda, hperform⟩ := exists_of_failed hfailed
    rw [run_eq_of_failed hfailed] at hfirst
    cases hfirst
    rw [hagenda, List.cons_append, run_eq_of_failed (step_of_error hperform)] at h
    cases h
    rw [hagenda]
    exact .inl ⟨error, rfl, rfl, rfl⟩
  | case3 p p' hnext ih =>
    rw [run_eq_of_step hnext] at hfirst
    rw [run_eq_of_step (step_append hnext rest)] at h
    exact ih hfirst h

end Pass

namespace Effect

/-- What is done to declare names: no branch is emitted, and the names are in sight. -/
def Declares : Effect → Prop
  | none => True
  | emit instruction => instruction.op ≠ .jpc
  | declare symbol => symbol.marked = false
  | patch _ | close => False

/-- What is done to translate a statement: no name is declared, and no frame reserved. -/
def Executes : Effect → Prop
  | none | patch _ | close => True
  | emit instruction => instruction.op ≠ .inc
  | declare _ => False

end Effect

namespace Task

/-- The tasks up to the frame for the variables. -/
def declarations : List Task :=
  [emit (.jump (Instruction.wordAddress 1)), constantPart, variablePart]

def Declares : Task → Prop
  | emit instruction => instruction.op ≠ .jpc
  | declare symbol => symbol.marked = false
  | expect .. | constantPart | constantName | constantValue _ | moreConstants | variablePart
  | variableName _ | moreVariables _ => True
  | patch _ | statement | moreStatements | readTarget | receive _ | thenPart | loopPart _
  | condition | relation | expression | moreTerms | term | moreFactors | factor | finish => False

def Executes : Task → Prop
  | emit instruction => instruction.op ≠ .inc
  | declare _ | constantPart | constantName | constantValue _ | moreConstants | variablePart
  | variableName _ | moreVariables _ => False
  | expect .. | patch _ | statement | moreStatements | readTarget | receive _ | thenPart
  | loopPart _ | condition | relation | expression | moreTerms | term | moreFactors | factor
  | finish => True

variable {task : Task} {token : Token} {scope : Scope} {size : Nat} {move : Move}

theorem Declares.of_move (htask : task.Declares) (h : task.move token scope size = .ok move) :
    (∀ next ∈ move.more, next.Declares) ∧ move.effect.Declares := by
  revert h
  fun_cases Task.move task token scope size
  all_goals
    rintro ⟨⟩
    try simp_all [Declares, Effect.Declares, Symbol.const, Symbol.var, Instruction.reserve]

theorem Executes.of_move (htask : task.Executes) (h : task.move token scope size = .ok move) :
    (∀ next ∈ move.more, next.Executes) ∧ move.effect.Executes := by
  revert h
  fun_cases Task.move task token scope size
  all_goals
    rintro ⟨⟩
    try simp_all [Executes, Effect.Executes, Instruction.store, Instruction.system,
      Instruction.jump, Instruction.operate, Instruction.hole, Instruction.literal]
  next hfetch => cases Scope.op_of_fetch hfetch <;> simp_all

theorem effect_ne_close (htask : task.Proper) (h : task.move token scope size = .ok move) :
    move.effect ≠ .close := by
  revert h
  fun_cases Task.move task token scope size
  all_goals
    rintro ⟨⟩
    try simp
  cases htask

end Task

/-- The symbol as it was declared, in sight. -/
def Symbol.unmark (symbol : Symbol) : Symbol :=
  { symbol with marked := false }

theorem Symbol.map_unmark {symbols : List Symbol} (h : ∀ symbol ∈ symbols, symbol.marked = false) :
    symbols.map unmark = symbols := by
  calc symbols.map unmark
      _ = symbols.map id := by
        apply List.map_congr_left
        intro symbol hmem
        rw [unmark, ← h symbol hmem]
        rfl
      _ = symbols := List.map_id symbols

namespace Session

/-- The symbols are declared one after the other, and nothing but that is told. -/
structure Enters (s : Session) (added : List Symbol) (t : Session) : Prop where
  unmarked : ∀ symbol ∈ added, symbol.marked = false
  entries : t.symbols.entries = s.symbols.entries ++ added
  events : t.events = s.events ++ added.map .declared

namespace Enters

variable {s u t : Session} {added more : List Symbol}

theorem refl (s : Session) : s.Enters [] s := by
  constructor <;> simp

theorem trans (h : s.Enters added u) (h' : u.Enters more t) : s.Enters (added ++ more) t := by
  constructor
  · intro symbol hmem
    cases List.mem_append.1 hmem with
    | inl hmem => exact h.unmarked symbol hmem
    | inr hmem => exact h'.unmarked symbol hmem
  · rw [h'.entries, h.entries, List.append_assoc]
  · rw [h'.events, h.events, List.map_append, List.append_assoc]

theorem read (h : s.Enters added t) (reads : Bool) :
    s.Enters added (if reads then t.advance else t) := by
  cases reads <;> exact ⟨h.unmarked, h.entries, h.events⟩

end Enters
end Session

theorem Effect.Declares.exists_enters {effect : Effect} {s t : Session} (heffect : effect.Declares)
    (h : effect.apply s = .ok t) : ∃ added, s.Enters added t := by
  cases apply_eq_ok_iff.1 h with
  | none => exact ⟨[], .refl s⟩
  | emit hemit => exact ⟨[], by constructor <;> simp [Session.events]⟩
  | @declare symbol id symbols hdeclare =>
    have hunmarked : symbol.marked = false := heffect
    have hentries := SymbolTable.entries_declare hdeclare
    rw [← hunmarked] at hentries
    refine ⟨[symbol], ?_, hentries, ?_⟩
    · simpa using hunmarked
    · simp [Session.events]
  | patch | close => cases heffect

namespace Pass

variable {p q : Pass} {s : Session} {result : Except CompileError Unit}

/-- All that is left to be done is of the first phase. -/
def Declaring (p : Pass) : Prop :=
  ∀ task ∈ p.agenda, task.Declares

/-- All that is left to be done is of the second phase. -/
def Body (p : Pass) : Prop :=
  p.Proper ∧ ∀ task ∈ p.agenda, task.Executes

theorem exists_of_step_of_forall {P : Task → Prop} (htasks : ∀ task ∈ p.agenda, P task)
    (hstep : p.step = .next q) :
    ∃ task rest move t, p.agenda = task :: rest ∧ P task ∧
      task.move p.session.token p.session.symbols.scope p.session.code.size = .ok move ∧
        move.effect.apply p.session = .ok t ∧
          q = ⟨move.more ++ rest, if move.reads then t.advance else t⟩ ∧
            ((∀ next ∈ move.more, P next) → ∀ next ∈ q.agenda, P next) := by
  obtain ⟨task, rest, more, t, hagenda, hperform, rfl⟩ := exists_of_step hstep
  obtain ⟨move, u, hmove, happly, rfl, rfl⟩ := Task.perform_eq_ok_iff.1 hperform
  rw [hagenda, List.forall_mem_cons] at htasks
  refine ⟨task, rest, move, u, hagenda, htasks.1, hmove, happly, rfl, ?_⟩
  intro hmore
  rw [List.forall_mem_append]
  exact ⟨hmore, htasks.2⟩

theorem declaring_declarations (s : Session) : Declaring ⟨Task.declarations, s⟩ := by
  simp [Declaring, Task.declarations, Task.Declares, Instruction.jump]

theorem Declaring.step (hstep : p.step = .next q) (h : p.Declaring) : q.Declaring := by
  obtain ⟨task, rest, move, t, _, htask, hmove, _, _, hagenda⟩ := exists_of_step_of_forall h hstep
  exact hagenda (htask.of_move hmove).1

theorem Declaring.run_of_step (Keeps : Pass → Prop)
    (hstep : ∀ {p q : Pass}, p.Declaring → p.step = .next q → Keeps p → Keeps q)
    (hdeclaring : p.Declaring) (hrun : p.run = (result, q)) (h : Keeps p) : Keeps q := by
  refine (Pass.run_of_step (fun p => p.Declaring ∧ Keeps p) ?_ hrun ⟨hdeclaring, h⟩).2
  rintro p q hnext ⟨hdeclaring, h⟩
  exact ⟨hdeclaring.step hnext, hstep hdeclaring hnext h⟩

theorem exists_enters_of_run (h : run ⟨Task.declarations, s⟩ = (result, q)) :
    ∃ added, s.Enters added q.session := by
  refine (declaring_declarations s).run_of_step (fun p => ∃ added, s.Enters added p.session) ?_ h
    ⟨[], .refl s⟩
  rintro p q hdeclaring hstep ⟨added, henters⟩
  obtain ⟨task, rest, move, t, _, htask, hmove, happly, rfl, _⟩ :=
    exists_of_step_of_forall hdeclaring hstep
  obtain ⟨new, hnew⟩ := (htask.of_move hmove).2.exists_enters happly
  exact ⟨added ++ new, (henters.trans hnew).read move.reads⟩

theorem body_statement (u : Session) : Body ⟨[.statement, .finish], u⟩ := by
  constructor
  · apply @Proper.underWay [_]
    simp [Task.Proper]
  · simp [Task.Executes]

theorem Body.step (hstep : p.step = .next q) (h : p.Body) : q.Body := by
  obtain ⟨hproper, htasks⟩ := h
  obtain ⟨task, rest, move, t, _, htask, hmove, _, _, hagenda⟩ :=
    exists_of_step_of_forall htasks hstep
  exact ⟨hproper.step hstep, hagenda (htask.of_move hmove).1⟩

theorem Body.run_of_step (Keeps : Pass → Prop)
    (hstep : ∀ {p q : Pass}, p.Body → p.step = .next q → Keeps p → Keeps q)
    (hbody : p.Body) (hrun : p.run = (result, q)) (h : Keeps p) : Keeps q := by
  refine (Pass.run_of_step (fun p => p.Body ∧ Keeps p) ?_ hrun ⟨hbody, h⟩).2
  rintro p q hnext ⟨hbody, h⟩
  exact ⟨hbody.step hnext, hstep hbody hnext h⟩

theorem Body.symbols_of_run {u : Session} (h : run ⟨[.statement, .finish], u⟩ = (result, q)) :
    q.session.symbols = if q.agenda = [] then u.symbols.markAll else u.symbols := by
  refine (body_statement u).run_of_step
    (fun p => p.session.symbols = if p.agenda = [] then u.symbols.markAll else u.symbols) ?_ h rfl
  intro p q hbody hstep hsymbols
  obtain ⟨task, tasks, move, t, hagenda, htask, _, hmove, happly, rfl⟩ |
    ⟨t, hagenda, _, happly, rfl⟩ := hbody.1.exists_of_step hstep
  · have hexecutes : task.Executes := hbody.2 task (by simp [hagenda])
    have heffect := (hexecutes.of_move hmove).2
    have hclose := Task.effect_ne_close htask hmove
    have ht : t.symbols = p.session.symbols := by
      generalize move.effect = effect at happly heffect hclose
      cases Effect.apply_eq_ok_iff.1 happly with
      | none | emit | patch => rfl
      | declare => cases heffect
      | close => exact absurd rfl hclose
    simp [hagenda, ht, hsymbols]
  · rw [hagenda] at hsymbols
    cases Effect.apply_eq_ok_iff.1 happly with
    | close => simp [hsymbols]

theorem phases_of_run (h : run ⟨Task.program, s⟩ = (result, q)) :
    ∃ result' p, run ⟨Task.declarations, s⟩ = (result', p) ∧
      ((∃ error, result' = .error error ∧ result = .error error ∧
        q = ⟨p.agenda ++ [.statement, .finish], p.session⟩) ∨
      (result' = .ok () ∧ p.agenda = [] ∧
        run ⟨[.statement, .finish], p.session⟩ = (result, q))) := by
  rcases hfirst : run ⟨Task.declarations, s⟩ with ⟨result', p⟩
  exact ⟨result', p, rfl, run_append hfirst h⟩

theorem agenda_eq_nil_iff_of_run (h : p.run = (result, q)) : q.agenda = [] ↔ result = .ok () := by
  obtain ⟨rfl, hagenda⟩ | ⟨error, rfl, hfailed⟩ := step_of_run h
  · simp [hagenda]
  · obtain ⟨task, rest, hagenda, _⟩ := exists_of_failed hfailed
    simp [hagenda]

end Pass

namespace Session

variable {s t : Session} {result : Except CompileError Unit}

/-- A pass fails before it comes to the statement, or translates it once all names are declared. -/
theorem phases_of_pass (h : s.pass = (result, t)) :
    ∃ added u, s.Enters added u ∧
      ((∃ error, result = .error error ∧ t = u) ∨
        ∃ q, Pass.run ⟨[.statement, .finish], u⟩ = (result, q) ∧ q.session = t) := by
  obtain ⟨_, rfl, rfl⟩ | ⟨_, q, hrun, rfl⟩ := pass_cases h
  · exact ⟨[], t, .refl t, .inl ⟨_, rfl, rfl⟩⟩
  · obtain ⟨result', p, hfirst, hphases⟩ := Pass.phases_of_run hrun
    obtain ⟨added, henters⟩ := Pass.exists_enters_of_run hfirst
    refine ⟨added, p.session, henters, ?_⟩
    obtain ⟨error, _, rfl, rfl⟩ | ⟨_, _, hbody⟩ := hphases
    · exact .inl ⟨error, rfl, rfl⟩
    · exact .inr ⟨q, hbody, rfl⟩

theorem symbols_of_body {u : Session} {q : Pass}
    (h : Pass.run ⟨[.statement, .finish], u⟩ = (result, q)) :
    (∀ error, result = .error error → q.session.symbols = u.symbols) ∧
      (result = .ok () → q.session.symbols = u.symbols.markAll) := by
  have hagenda := Pass.agenda_eq_nil_iff_of_run h
  rw [Pass.Body.symbols_of_run h]
  constructor
  · rintro error rfl
    simp [hagenda]
  · rintro rfl
    simp [hagenda]

theorem map_unmark_of_body {u : Session} {q : Pass}
    (h : Pass.run ⟨[.statement, .finish], u⟩ = (result, q)) :
    q.session.symbols.entries.map Symbol.unmark = u.symbols.entries.map Symbol.unmark := by
  rw [Pass.Body.symbols_of_run h]
  split
  · rw [SymbolTable.entries_markAll, List.map_map]
    rfl
  · rfl

theorem exists_entries_of_pass (h : s.pass = (result, t)) :
    ∃ added, (∀ symbol ∈ added, symbol.marked = false) ∧
      (∀ error, result = .error error → t.symbols.entries = s.symbols.entries ++ added) ∧
        (result = .ok () → t.symbols.entries = (s.symbols.entries ++ added).map Symbol.mark) := by
  obtain ⟨added, u, henters, ⟨error, rfl, rfl⟩ | ⟨q, hrun, rfl⟩⟩ := phases_of_pass h
  · refine ⟨added, henters.unmarked, ?_, ?_⟩ <;> simp [henters.entries]
  · obtain ⟨herror, hok⟩ := symbols_of_body hrun
    refine ⟨added, henters.unmarked, ?_, ?_⟩
    · intro error hresult
      rw [herror error hresult, henters.entries]
    · intro hresult
      rw [hok hresult, SymbolTable.entries_markAll, henters.entries]

end Session
end PL0
