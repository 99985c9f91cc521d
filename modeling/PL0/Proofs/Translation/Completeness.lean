import PL0.Proofs.Syntax.Unambiguous
import PL0.Proofs.Translation.Soundness

/-!
This module contains the proof that a pass accepts all programs whose names are properly used, as
long as there is room for their symbols and their code. By induction over the trees: where the
spelling of a tree is seen and the token behind it does not continue the tree, the tasks for the
tree can be done, and translate the tree.
-/

namespace PL0

open Except (map_eq_ok_iff)
open Token (firstKind)
open Declarations (partSpelling moreSpelling constantSpelling variableSpelling constantSymbols
  variableSymbols)

/-- The tokens are still to be read, names mean what the scope says, and the code has room for as
many more instructions. -/
structure Session.Ready (s : Session) (scope : Scope) (tokens : List Token) (room : Nat) :
    Prop where
  tokens : s.cursor.rest.map Token.bare = tokens
  scope : s.symbols.scope = scope
  room : s.code.size + room ≤ s.code.capacity

namespace Session.Ready

variable {s t : Session} {scope : Scope} {rest : List Token} {room : Nat}

theorem kind_eq {tokens : List Token} (h : s.Ready scope tokens room) :
    s.kind = firstKind tokens := by
  rw [← h.tokens, Token.firstKind_map_bare]
  rfl

theorem bare_token {token : Token} (h : s.Ready scope (token :: rest) room) :
    s.token.bare = token := by
  rcases s with ⟨⟨passed, _ | ⟨next, behind⟩⟩, symbols, code, log⟩
  · cases h.tokens
  · exact (List.cons.inj h.tokens).1

theorem lexeme_eq {name : String} (h : s.Ready scope (.ident name :: rest) room) :
    s.token.lexeme = name := (Token.bare_eq_ident_iff.1 h.bare_token).2

theorem value_eq {value : Word} (h : s.Ready scope (.number value :: rest) room) :
    s.token.value = value := (Token.bare_eq_number_iff.1 h.bare_token).2

theorem advance {token : Token} (h : s.Ready scope (token :: rest) room) :
    s.advance.Ready scope rest room := by
  refine ⟨?_, h.scope, h.room⟩
  rcases s with ⟨⟨passed, _ | ⟨next, behind⟩⟩, symbols, code, log⟩
  · cases h.tokens
  · exact (List.cons.inj h.tokens).2

theorem translates_advance {token : Token} (h : s.Ready scope (token :: rest) room)
    (hkind : token.kind ≠ .endOfInput) : Translates [token] [] [] s s.advance := by
  have hread := Translates.of_advance h.kind_eq hkind
  rwa [h.bare_token] at hread

theorem declares {spelling : List Token} {symbols : List Symbol} {code : List Instruction}
    {total : Nat} (h : s.Ready scope (spelling ++ rest) total) (hsize : code.length + room = total)
    (ht : Translates spelling symbols code s t) : t.Ready t.symbols.scope rest room := by
  have hspelling := ht.spelling
  have hroom := h.room
  rw [h.tokens] at hspelling
  refine ⟨(List.append_cancel_left hspelling).symm, rfl, ?_⟩
  rw [ht.size_eq, ht.capacity_eq]
  omega

theorem translates {spelling : List Token} {code : List Instruction} {size : Nat}
    (h : s.Ready scope (spelling ++ rest) (size + room)) (hsize : code.length = size)
    (ht : Translates spelling [] code s t) : t.Ready scope rest room := by
  have hready := h.declares (by rw [hsize]) ht
  rwa [ht.scope_eq, h.scope] at hready

theorem locationOf_eq {tokens : List Token} {name : String} {location : Location}
    (h : s.Ready scope tokens room) (hlocation : scope name = some (.var location)) :
    s.locationOf name = .ok location := by
  rw [Session.locationOf_eq_ok_iff, h.scope, hlocation]

theorem exists_emit {tokens : List Token} (h : s.Ready scope tokens (1 + room))
    (instruction : Instruction) : ∃ t, s.emit instruction = .ok t := by
  have hroom := h.room
  have hemit := (@Code.emit_eq_ok_iff s.code _ instruction s.code.size).2 ⟨by omega, rfl, rfl⟩
  exact ⟨_, map_eq_ok_iff.2 ⟨_, hemit, rfl⟩⟩

end Session.Ready

/-- The tasks can be done, and translate a piece of a program. -/
structure Completes (tasks : List Task) (spelling : List Token) (symbols : List Symbol)
    (code : List Instruction) (s t : Session) : Prop where
  performs : Performs tasks s t
  translates : Translates spelling symbols code s t

namespace Completes

variable {s u t : Session} {spelling spelling' : List Token} {symbols symbols' : List Symbol}
  {code code' : List Instruction} {scope : Scope} {rest : List Token} {room : Nat}

theorem append {tasks tasks' : List Task} (h : Completes tasks spelling symbols code s u)
    (h' : Completes tasks' spelling' symbols' code' u t) :
    Completes (tasks ++ tasks') (spelling ++ spelling') (symbols ++ symbols') (code ++ code') s t :=
  ⟨h.performs.append h'.performs, h.translates.trans h'.translates⟩

theorem read {task : Task} {more : List Task} {token : Token}
    (h : s.Ready scope (token :: rest) room) (hkind : token.kind ≠ .endOfInput)
    (hmore : Completes more spelling symbols code s.advance t)
    (hperform : task.perform s = .ok (more, s.advance)) :
    Completes [task] (token :: spelling) symbols code s t :=
  ⟨.step hperform hmore.performs, (h.translates_advance hkind).trans hmore.translates⟩

theorem unread {task : Task} {more : List Task} (hmore : Completes more spelling symbols code s t)
    (hperform : task.perform s = .ok (more, s)) : Completes [task] spelling symbols code s t :=
  ⟨.step hperform hmore.performs, hmore.translates⟩

theorem expect {kind : Kind} (fault : Fault) (h : s.Ready scope (.plain kind :: rest) room)
    (hkind : kind ≠ .endOfInput) :
    Completes [.expect kind fault] [.plain kind] [] [] s s.advance := by
  have hperform : (Task.expect kind fault).perform s = .ok ([], s.advance) := if_pos h.kind_eq
  exact ⟨.one hperform, h.translates_advance hkind⟩

theorem append_expect {tasks : List Task} {kind : Kind} (fault : Fault)
    (h : Completes tasks spelling symbols code s u) (hu : u.Ready scope (.plain kind :: rest) room)
    (hkind : kind ≠ .endOfInput) :
    Completes (tasks ++ [.expect kind fault]) (spelling ++ [.plain kind]) symbols code s
      u.advance := by
  simpa using h.append (expect fault hu hkind)

theorem emit (instruction : Instruction) (hop : instruction.op ≠ .jpc)
    (h : s.Ready scope rest (1 + room)) :
    ∃ t, Completes [.emit instruction] [] [] [instruction] s t ∧ t.Ready scope rest room := by
  obtain ⟨t, hemit⟩ := h.exists_emit instruction
  have hread := Translates.of_emit hop hemit
  refine ⟨t, ⟨.one ?_, hread⟩, h.translates rfl hread⟩
  rw [Task.perform, hemit]
  rfl

theorem append_emit {tasks : List Task} (instruction : Instruction) (hop : instruction.op ≠ .jpc)
    (h : Completes tasks spelling symbols code s u) (hu : u.Ready scope rest (1 + room)) :
    ∃ t, Completes (tasks ++ [.emit instruction]) spelling symbols (code ++ [instruction]) s t ∧
      t.Ready scope rest room := by
  obtain ⟨t, hemit, ht⟩ := emit instruction hop hu
  exact ⟨t, by simpa using h.append hemit, ht⟩

end Completes

namespace Level

/-- The tasks that are still to be done when an expression of the level has been read so far. -/
def pending : Level → List Task
  | factor => []
  | chain tier => [tier.more]

/-- A token of this kind does not continue the last operand of an expression of the level. -/
def Pauses : Level → Kind → Prop
  | factor, _ => True
  | chain tier, kind => tier.operand.Stops kind

theorem Stops.pauses {level : Level} {kind : Kind} (h : level.Stops kind) : level.Pauses kind := by
  cases level with
  | factor => trivial
  | chain tier => exact (stops_chain_iff.1 h).2

theorem performs_pending {level : Level} {s : Session} {scope : Scope} {rest : List Token}
    {room : Nat} (h : s.Ready scope rest room) (hstop : level.Stops (firstKind rest)) :
    Performs level.pending s s := by
  cases level with
  | factor => exact .nil s
  | chain tier =>
    apply Performs.one
    apply Task.perform_more_stop
    intro operator
    rw [h.kind_eq]
    exact (stops_chain_iff.1 hstop).1 operator

end Level

namespace Expression

theorem exists_translates {level : Level} (e : Expression level) {s : Session} {scope : Scope}
    {rest : List Token} {room : Nat} (h : s.Ready scope (e.spelling ++ rest) (e.size + room))
    (hpauses : level.Pauses (firstKind rest)) (hscoped : e.Scoped scope) :
    ∃ u, Translates e.spelling [] (e.code scope) s u ∧ Becomes [level.task] s level.pending u := by
  -- A chain is a left operand and one more, but the tasks go through it from the left. So what is
  -- still pending behind the left operand must stay open.
  induction e generalizing s rest room with
  | number value =>
    have hkind : s.kind = .number := h.kind_eq
    obtain ⟨u, hemit⟩ := h.exists_emit (.literal value)
    have hread := Translates.of_emit_advance (by simp [Instruction.literal]) hemit hkind (by decide)
    rw [h.bare_token] at hread
    refine ⟨u.advance, hread, ?_⟩
    apply Becomes.of_perform
    simp only [Level.task, Task.perform, Task.performFactor, hkind, h.value_eq, hemit]
    rfl
  | ident name =>
    have hkind : s.kind = .ident := h.kind_eq
    obtain ⟨binding, hbinding⟩ := scoped_ident_iff.1 hscoped
    have hscope := hbinding
    rw [← h.scope] at hscope
    obtain ⟨symbol, hfind, rfl⟩ := Option.map_eq_some_iff.1 hscope
    rw [← Session.symbol_eq_ok_iff] at hfind
    obtain ⟨u, hemit⟩ := h.exists_emit symbol.fetch
    have hread := Translates.of_emit_advance symbol.op_fetch_ne_jpc hemit hkind (by decide)
    rw [h.bare_token, Symbol.fetch_eq] at hread
    refine ⟨u.advance, ?_, ?_⟩
    · simpa [spelling, code, hbinding] using hread
    · apply Becomes.of_perform
      simp only [Level.task, Task.perform, Task.performFactor, hkind, h.lexeme_eq, hfind, hemit]
      rfl
  | parens inner ih =>
    have hstop : Level.expression.Stops .rparen := by decide
    rw [spelling, List.cons_append, List.append_assoc] at h
    obtain ⟨u, hread, hbecomes⟩ := ih h.advance hstop.pauses hscoped
    have hu := h.advance.translates (length_code hscoped) hread
    have hinner : Completes [.expression] inner.spelling [] (inner.code scope) s.advance u :=
      ⟨hbecomes.performs (Level.performs_pending hu hstop), hread⟩
    have hclosed := hinner.append_expect .rightParenExpected hu (by decide)
    have hparens :
        Completes [.factor] (parens inner).spelling [] (inner.code scope) s u.advance := by
      apply Completes.read h (by decide) hclosed
      rw [Task.perform, Task.performFactor, h.kind_eq]
      rfl
    exact ⟨u.advance, hparens.translates, hparens.performs.becomes⟩
  | @single tier operand ih =>
    have hstop : tier.operand.Stops (firstKind rest) := hpauses
    obtain ⟨u, hread, hbecomes⟩ := ih h hstop.pauses hscoped
    have hu := h.translates (length_code hscoped) hread
    have hoperand := hbecomes.performs (Level.performs_pending hu hstop)
    refine ⟨u, hread, ?_⟩
    apply Becomes.trans (.of_perform (Task.perform_chain tier s))
    exact hoperand.becomes.append [tier.more]
  | @binary tier left operator right ihl ihr =>
    have hstop : tier.operand.Stops (firstKind rest) := hpauses
    have hoperator : operator.kind ≠ .endOfInput := by cases operator <;> decide
    rw [scoped_binary_iff] at hscoped
    rw [size, spelling, List.append_assoc, Nat.add_assoc, Nat.add_assoc] at h
    obtain ⟨u, hleft, hbecomes⟩ := ihl h (Level.stops_operand_operator operator) hscoped.1
    have hu := h.translates (length_code hscoped.1) hleft
    obtain ⟨v, hright, hbecomes'⟩ := ihr hu.advance hstop.pauses hscoped.2
    have hv := hu.advance.translates (length_code hscoped.2) hright
    have hoperand :
        Completes [tier.operand.task] right.spelling [] (right.code scope) u.advance v :=
      ⟨hbecomes'.performs (Level.performs_pending hv hstop), hright⟩
    obtain ⟨w, hemit, _⟩ := hoperand.append_emit (.operate operator.operation)
      (by simp [Instruction.operate]) hv
    refine ⟨w, hleft.trans ((hu.translates_advance hoperator).trans hemit.translates), ?_⟩
    apply hbecomes.trans
    apply Becomes.trans (.of_perform (Task.perform_more_operator operator hu.kind_eq))
    exact hemit.performs.becomes.append [tier.more]

theorem exists_completes {level : Level} (e : Expression level) {s : Session} {scope : Scope}
    {rest : List Token} {room : Nat} (h : s.Ready scope (e.spelling ++ rest) (e.size + room))
    (hstop : level.Stops (firstKind rest)) (hscoped : e.Scoped scope) :
    ∃ t, Completes [level.task] e.spelling [] (e.code scope) s t ∧ t.Ready scope rest room := by
  obtain ⟨t, hread, hbecomes⟩ := e.exists_translates h hstop.pauses hscoped
  have ht := h.translates (length_code hscoped) hread
  exact ⟨t, ⟨hbecomes.performs (Level.performs_pending ht hstop), hread⟩, ht⟩

end Expression

theorem Condition.exists_completes (c : Condition) {s : Session} {scope : Scope}
    {rest : List Token} {room : Nat} (h : s.Ready scope (c.spelling ++ rest) (c.size + room))
    (hstop : Level.expression.Stops (firstKind rest)) (hscoped : c.Scoped scope) :
    ∃ t, Completes [.condition] c.spelling [] (c.code scope) s t ∧ t.Ready scope rest room := by
  cases c with
  | even operand =>
    rw [spelling, size, List.cons_append, Nat.add_assoc] at h
    obtain ⟨u, hoperand, hu⟩ := operand.exists_completes h.advance hstop hscoped
    obtain ⟨t, hemit, ht⟩ := hoperand.append_emit (.operate .even)
      (by simp [Instruction.operate]) hu
    refine ⟨t, ?_, ht⟩
    apply Completes.read h (by decide) hemit
    exact if_pos h.kind_eq
  | compare left comparison right =>
    have hcomparison : comparison.kind ≠ .endOfInput := by cases comparison <;> decide
    have hkind : s.kind ≠ .evenSym := by
      rw [h.kind_eq, spelling, List.append_assoc]
      exact left.firstKind_spelling_ne_evenSym _
    rw [scoped_compare_iff] at hscoped
    rw [spelling, size, List.append_assoc, Nat.add_assoc, Nat.add_assoc] at h
    obtain ⟨u, hleft, hu⟩ := left.exists_completes h comparison.stops hscoped.1
    obtain ⟨v, hright, hv⟩ := right.exists_completes hu.advance hstop hscoped.2
    obtain ⟨t, hemit, ht⟩ := hright.append_emit (.operate comparison.operation)
      (by simp [Instruction.operate]) hv
    have hrelation := Completes.read hu hcomparison hemit
      (Task.perform_relation comparison hu.kind_eq)
    refine ⟨t, ?_, ht⟩
    apply (hleft.append hrelation).unread
    exact if_neg hkind

namespace Extent

/-- The tasks that read a statement, or the statements up to `end`. -/
def tasks : Extent → List Task
  | one => [.statement]
  | list => [.statement, .moreStatements]

def closed : Extent → List Token → List Token
  | one, spelling => spelling
  | list, spelling => spelling ++ [.plain .endSym]

def Leaves : Extent → Kind → Prop
  | one, kind => one.Ends kind
  | list, _ => True

end Extent

theorem Session.Ready.exists_hole {s : Session} {scope : Scope} {tokens : List Token} {room : Nat}
    (h : s.Ready scope tokens (1 + room)) :
    ∃ v, s.emit .hole = .ok v ∧ v.Ready scope tokens room ∧ v.code.size = s.code.size + 1 := by
  have hroom := h.room
  refine ⟨_, Session.emit_hole_eq_ok_iff.2 ⟨by omega, rfl⟩, ⟨h.tokens, h.scope, ?_⟩, ?_⟩
  · rw [Code.size_extendOpen, Code.capacity_extendOpen, List.length_nil]
    omega
  · rw [Code.size_extendOpen, List.length_nil]

theorem Completes.patch {tasks : List Task} {spelling : List Token} {code : List Instruction}
    {s v w : Session} (hhole : s.emit .hole = .ok v) (h : Completes tasks spelling [] code v w) :
    ∃ t, Performs (tasks ++ [.patch s.code.size]) v t ∧
      Translates spelling []
        (.branch (Int32.ofNat (3 * (s.code.size + 1 + code.length))) :: code) s t := by
  have hcode : w.code = s.code.extendOpen code := by
    rw [h.translates.code, (Session.emit_hole_eq_ok_iff.1 hhole).2, Code.extend_extendOpen,
      List.nil_append]
  have hpatch := Session.patch_eq hcode
  refine ⟨_, h.performs.append (.one ?_), h.translates.of_branch hhole hpatch⟩
  rw [Task.perform, hpatch]
  rfl

namespace Statement

/-- Wherever the statement is seen as a whole, it can be read. -/
def Readable {extent : Extent} (scope : Scope) (statement : Statement extent) : Prop :=
  ∀ {s : Session} {rest : List Token} {room : Nat},
    s.Ready scope (extent.closed statement.spelling ++ rest) (statement.size + room) →
      extent.Leaves (firstKind rest) →
        ∃ t, Completes extent.tasks (extent.closed statement.spelling) []
          (statement.code scope s.code.size) s t

variable {scope : Scope}

theorem readable_empty : empty.Readable scope := by
  intro s rest room h hleaves
  refine ⟨s, .one ?_, .refl s⟩
  rw [Task.perform, Task.performStatement, h.kind_eq]
  have hkind : Extent.one.Ends (firstKind rest) := hleaves
  rcases hkind with hkind | hkind | hkind | hkind
  all_goals
    simp only [Extent.closed, spelling, List.nil_append, hkind]

theorem readable_assign {name : String} {value : Expression .expression}
    (hscoped : (assign name value).Scoped scope) : (assign name value).Readable scope := by
  intro s rest room h hleaves
  obtain ⟨hvalue, location, hlocation⟩ := scoped_assign_iff.1 hscoped
  simp only [Extent.closed, spelling, size, List.cons_append, Nat.add_assoc] at h
  obtain ⟨u, hread, hu⟩ :=
    value.exists_completes h.advance.advance (Extent.stops_of_ends hleaves) hvalue
  have hbecomes := (Completes.expect .becomesExpected h.advance (by decide)).append hread
  obtain ⟨t, hstore, _⟩ := hbecomes.append_emit (.store location) (by simp [Instruction.store]) hu
  rw [Extent.closed, spelling, code, Scope.location_eq hlocation]
  refine ⟨t, Completes.read h (by simp [Token.ident]) hstore ?_⟩
  have hkind : s.kind = .ident := h.kind_eq
  simp only [Task.perform, Task.performStatement, hkind, h.lexeme_eq, h.locationOf_eq hlocation]
  rfl

theorem readable_read {name : String} (hscoped : (read name).Scoped scope) :
    (read name).Readable scope := by
  intro s rest room h hleaves
  obtain ⟨location, hlocation⟩ := scoped_read_iff.1 hscoped
  simp only [Extent.closed, spelling, size, List.cons_append] at h
  have hname := h.advance.advance
  rw [show 2 + room = 1 + (1 + room) by omega] at hname
  obtain ⟨u, hread, hu⟩ := Completes.emit (.system .read) (by simp [Instruction.system]) hname
  obtain ⟨t, hstore, _⟩ := hread.append_emit (.store location) (by simp [Instruction.store]) hu
  rw [Extent.closed, spelling, code, Scope.location_eq hlocation]
  have hreceive : Completes [.receive name] [] [] [.system .read, .store location]
      s.advance.advance t := by
    apply hstore.unread
    rw [Task.perform, hname.locationOf_eq hlocation]
    rfl
  have htarget : Completes [.readTarget] [.ident name] [] [.system .read, .store location]
      s.advance t := by
    have hkind : s.advance.kind = .ident := h.advance.kind_eq
    apply Completes.read h.advance (by simp [Token.ident]) hreceive
    rw [Task.perform, if_pos hkind, h.advance.lexeme_eq]
  refine ⟨t, Completes.read h (by decide) htarget ?_⟩
  rw [Task.perform, Task.performStatement, h.kind_eq]
  rfl

theorem readable_write {value : Expression .expression} (hscoped : (write value).Scoped scope) :
    (write value).Readable scope := by
  intro s rest room h hleaves
  rw [scoped_write_iff] at hscoped
  simp only [Extent.closed, spelling, size, List.cons_append, Nat.add_assoc] at h
  obtain ⟨u, hread, hu⟩ := value.exists_completes h.advance (Extent.stops_of_ends hleaves) hscoped
  obtain ⟨t, hwrite, _⟩ := hread.append_emit (.system .write) (by simp [Instruction.system]) hu
  refine ⟨t, Completes.read h (by decide) hwrite ?_⟩
  rw [Task.perform, Task.performStatement, h.kind_eq]
  rfl

theorem readable_compound {body : Statement .list} (hbody : body.Readable scope) :
    (compound body).Readable scope := by
  intro s rest room h hleaves
  simp only [Extent.closed, spelling, size, List.cons_append] at h
  obtain ⟨t, hread⟩ := hbody h.advance trivial
  refine ⟨t, Completes.read h (by decide) hread ?_⟩
  rw [Task.perform, Task.performStatement, h.kind_eq]
  rfl

theorem exists_thenPart {body : Statement .one} (hscoped : body.Scoped scope)
    (hbody : body.Readable scope) {s : Session} {rest : List Token} {room : Nat}
    (h : s.Ready scope (.plain .thenSym :: (body.spelling ++ .plain .fiSym :: rest))
      (1 + (body.size + room))) :
    ∃ t, Completes [.thenPart] (.plain .thenSym :: (body.spelling ++ [.plain .fiSym])) []
      (.branch (Int32.ofNat (3 * (s.code.size + 1 + body.size))) ::
        body.code scope (s.code.size + 1)) s t := by
  obtain ⟨v, hhole, hv, hsize⟩ := h.exists_hole
  -- The branch that is left open is part of the code in front of the body.
  obtain ⟨w, hw⟩ := hbody hv.advance (.inr (.inr (.inl rfl)))
  rw [Session.code_advance, hsize] at hw
  have hguarded := (Completes.expect .thenExpected hv (by decide)).append hw
  obtain ⟨x, hperforms, hbranch⟩ := hguarded.patch hhole
  rw [List.nil_append, length_code hscoped] at hbranch
  have hx : x.Ready scope (.plain .fiSym :: rest) room := by
    rw [← Nat.add_assoc] at h
    apply h.translates ?_ hbranch
    rw [List.length_cons, length_code hscoped, Nat.add_comm]
  have hfi := Completes.expect .fiExpected hx (by decide)
  refine ⟨x.advance, .step ?_ (hperforms.append hfi.performs), ?_⟩
  · rw [Task.perform, hhole]
    rfl
  · simpa [Extent.closed] using hbranch.trans hfi.translates

theorem exists_loopPart {body : Statement .one} (hscoped : body.Scoped scope)
    (hbody : body.Readable scope) (start : Word) {s : Session} {rest : List Token} {room : Nat}
    (h : s.Ready scope (.plain .doSym :: (body.spelling ++ rest)) (1 + (body.size + (1 + room))))
    (hends : Extent.one.Ends (firstKind rest)) :
    ∃ t, Completes [.loopPart start] (.plain .doSym :: body.spelling) []
      (.branch (Int32.ofNat (3 * (s.code.size + body.size + 2))) ::
        (body.code scope (s.code.size + 1) ++ [.jump start])) s t := by
  obtain ⟨v, hhole, hv, hsize⟩ := h.exists_hole
  obtain ⟨w, hw⟩ := hbody hv.advance hends
  have hready := hv.advance.translates (length_code hscoped _) hw.translates
  rw [Session.code_advance, hsize] at hw
  have hguarded := (Completes.expect .doExpected hv (by decide)).append hw
  obtain ⟨x, hjump, _⟩ := hguarded.append_emit (.jump start) (by simp [Instruction.jump]) hready
  obtain ⟨t, hperforms, hbranch⟩ := hjump.patch hhole
  refine ⟨t, .step ?_ hperforms, ?_⟩
  · rw [Task.perform, hhole]
    rfl
  · have htarget : s.code.size + 1 + (body.size + 1) = s.code.size + body.size + 2 := by omega
    rw [List.nil_append, List.length_append, length_code hscoped, List.length_singleton, htarget]
      at hbranch
    exact hbranch

theorem readable_ifThen {condition : Condition} {body : Statement .one}
    (hscoped : (ifThen condition body).Scoped scope) (hbody : body.Readable scope) :
    (ifThen condition body).Readable scope := by
  intro s rest room h hleaves
  rw [scoped_ifThen_iff] at hscoped
  simp only [Extent.closed, spelling, size, List.cons_append, List.append_assoc, List.nil_append,
    Nat.add_assoc] at h
  have hstop : Level.expression.Stops .thenSym := by decide
  obtain ⟨u, hcondition, hu⟩ := condition.exists_completes h.advance hstop hscoped.1
  obtain ⟨t, hthen⟩ := exists_thenPart hscoped.2 hbody hu
  rw [hcondition.translates.size_eq, Condition.length_code hscoped.1, Session.code_advance] at hthen
  refine ⟨t, Completes.read h (by decide) (hcondition.append hthen) ?_⟩
  rw [Task.perform, Task.performStatement, h.kind_eq]
  rfl

theorem readable_whileDo {condition : Condition} {body : Statement .one}
    (hscoped : (whileDo condition body).Scoped scope) (hbody : body.Readable scope) :
    (whileDo condition body).Readable scope := by
  intro s rest room h hleaves
  rw [scoped_whileDo_iff] at hscoped
  have hroom : condition.size + body.size + 2 + room =
      condition.size + (1 + (body.size + (1 + room))) := by omega
  simp only [Extent.closed, spelling, size, List.cons_append, List.append_assoc, hroom] at h
  have hstop : Level.expression.Stops .doSym := by decide
  obtain ⟨u, hcondition, hu⟩ := condition.exists_completes h.advance hstop hscoped.1
  obtain ⟨t, hloop⟩ := exists_loopPart hscoped.2 hbody s.code.nextAddress hu hleaves
  rw [hcondition.translates.size_eq, Condition.length_code hscoped.1, Session.code_advance,
    Code.nextAddress_eq] at hloop
  refine ⟨t, Completes.read h (by decide) (hcondition.append hloop) ?_⟩
  rw [Task.perform, Task.performStatement, h.kind_eq, ← Code.nextAddress_eq]
  rfl

theorem readable_last {statement : Statement .one} (hscoped : statement.Scoped scope)
    (hstatement : statement.Readable scope) : (last statement).Readable scope := by
  intro s rest room h _
  simp only [Extent.closed, spelling, size, List.append_assoc] at h
  obtain ⟨u, hread⟩ := hstatement h (.inr (.inl rfl))
  have hu : u.Ready scope (.plain .endSym :: rest) room :=
    h.translates (length_code hscoped _) hread.translates
  have hend : Completes [.moreStatements] [.plain .endSym] [] [] u u.advance := by
    have hkind : u.kind ≠ .semicolon := by simp [hu.kind_eq, Token.plain]
    apply (Completes.expect .endExpected hu (by decide)).unread
    exact if_neg hkind
  have hall := hread.append hend
  rw [List.append_nil (code scope statement s.code.size)] at hall
  exact ⟨u.advance, hall⟩

theorem readable_followed {first : Statement .one} {rest : Statement .list}
    (hscoped : first.Scoped scope) (hfirst : first.Readable scope) (hrest : rest.Readable scope) :
    (followed first rest).Readable scope := by
  intro s behind room h _
  have hspelling : Extent.list.closed (followed first rest).spelling =
      first.spelling ++ .plain .semicolon :: Extent.list.closed rest.spelling := by
    simp [Extent.closed, spelling]
  rw [hspelling, List.append_assoc, List.cons_append, size, Nat.add_assoc] at h
  obtain ⟨u, hread⟩ := hfirst h (.inl rfl)
  have hu := h.translates (length_code hscoped _) hread.translates
  obtain ⟨t, hlist⟩ := hrest hu.advance trivial
  rw [Session.code_advance, hread.translates.size_eq, length_code hscoped] at hlist
  have hmore : Completes [.moreStatements] _ [] _ u t :=
    .read hu (by decide) hlist (if_pos hu.kind_eq)
  rw [hspelling]
  exact ⟨t, hread.append hmore⟩

theorem readable {extent : Extent} {statement : Statement extent}
    (hscoped : statement.Scoped scope) : statement.Readable scope := by
  induction statement with
  | empty => exact readable_empty
  | assign => exact readable_assign hscoped
  | read => exact readable_read hscoped
  | write => exact readable_write hscoped
  | compound body ih => exact readable_compound (ih hscoped)
  | ifThen condition body ih =>
    exact readable_ifThen hscoped (ih (scoped_ifThen_iff.1 hscoped).2)
  | whileDo condition body ih =>
    exact readable_whileDo hscoped (ih (scoped_whileDo_iff.1 hscoped).2)
  | last statement ih => exact readable_last hscoped (ih hscoped)
  | followed first rest ihf ihr =>
    rw [scoped_followed_iff] at hscoped
    exact readable_followed hscoped.1 (ihf hscoped.1) (ihr hscoped.2)

end Statement

theorem Completes.declare {s : Session} {scope : Scope} {tokens : List Token} {room : Nat}
    {symbol : Symbol} {id : Nat} {after : SymbolTable} (h : s.Ready scope tokens room)
    (hdeclare : s.symbols.declare symbol = .ok (id, after)) :
    ∃ t, Completes [.declare symbol] [] [symbol] [] s t ∧ t.Ready after.scope tokens room ∧
      t.symbols = after := by
  have hsession : s.declare symbol = .ok _ := map_eq_ok_iff.2 ⟨_, hdeclare, rfl⟩
  refine ⟨_, ⟨.one ?_, .of_declare hsession⟩, ⟨h.tokens, rfl, h.room⟩, rfl⟩
  rw [Task.perform, hsession]
  rfl

/-- Further constants can be declared wherever they are seen. -/
def ReadsConstants (consts : List (String × Word)) : Prop :=
  ∀ {s : Session} {scope : Scope} {tokens : List Token} {room : Nat} {after : SymbolTable},
    s.Ready scope (moreSpelling constantSpelling consts ++ tokens) room →
      Declared (constantSymbols false consts) s.symbols after →
        ∃ t, Completes [.moreConstants] (moreSpelling constantSpelling consts)
          (constantSymbols false consts) [] s t ∧ t.symbols = after

theorem exists_constantName {name : String} {value : Word} {rest : List (String × Word)}
    (hrest : ReadsConstants rest) {s : Session} {scope : Scope} {tokens : List Token} {room : Nat}
    {after : SymbolTable}
    (h : s.Ready scope (.ident name :: .plain .eql :: .number value ::
      (moreSpelling constantSpelling rest ++ tokens)) room)
    (hdeclared : Declared (constantSymbols false ((name, value) :: rest)) s.symbols after) :
    ∃ t, Completes [.constantName]
      (.ident name :: .plain .eql :: .number value :: moreSpelling constantSpelling rest)
      (constantSymbols false ((name, value) :: rest)) [] s t ∧ t.symbols = after := by
  obtain ⟨id, next, hdeclare, hdeclared⟩ := hdeclared
  have hname : s.kind = .ident := h.kind_eq
  have hnumber : s.advance.advance.kind = .number := h.advance.advance.kind_eq
  obtain ⟨u, hsymbol, hu, rfl⟩ := Completes.declare h.advance.advance.advance hdeclare
  obtain ⟨t, hmore, ht⟩ := hrest hu hdeclared
  have hvalue : Completes [.constantValue name]
      (.number value :: moreSpelling constantSpelling rest)
      (constantSymbols false ((name, value) :: rest)) [] s.advance.advance t := by
    apply Completes.read h.advance.advance (by simp [Token.number]) (hsymbol.append hmore)
    rw [Task.perform, if_pos hnumber, h.advance.advance.value_eq]
    rfl
  have heql := (Completes.expect .equalsExpected h.advance (by decide)).append hvalue
  refine ⟨t, ?_, ht⟩
  apply Completes.read h (by simp [Token.ident]) heql
  rw [Task.perform, if_pos hname, h.lexeme_eq]
  rfl

theorem readsConstants (consts : List (String × Word)) : ReadsConstants consts := by
  induction consts with
  | nil =>
    rintro s scope tokens room _ h rfl
    have hkind : s.kind ≠ .comma := by simp [h.kind_eq, moreSpelling, Token.plain]
    have hsemicolon := Completes.expect .semicolonExpected h (by decide)
    exact ⟨s.advance, hsemicolon.unread (if_neg hkind), rfl⟩
  | cons constant rest ih =>
    intro s scope tokens room after h hdeclared
    obtain ⟨t, hread, ht⟩ := exists_constantName ih h.advance hdeclared
    exact ⟨t, .read h (by decide) hread (if_pos h.kind_eq), ht⟩

theorem exists_constantPart (consts : List (String × Word)) {s : Session} {scope : Scope}
    {tokens : List Token} {room : Nat} {after : SymbolTable}
    (h : s.Ready scope (partSpelling .constSym constantSpelling consts ++ tokens) room)
    (htokens : firstKind tokens ≠ .constSym)
    (hdeclared : Declared (constantSymbols false consts) s.symbols after) :
    ∃ t, Completes [.constantPart] (partSpelling .constSym constantSpelling consts)
      (constantSymbols false consts) [] s t ∧ t.symbols = after := by
  cases consts with
  | nil =>
    cases hdeclared
    have hkind : s.kind ≠ .constSym := by rwa [h.kind_eq]
    exact ⟨s, ⟨.one (if_neg hkind), .refl s⟩, rfl⟩
  | cons constant rest =>
    obtain ⟨t, hread, ht⟩ := exists_constantName (readsConstants rest) h.advance hdeclared
    exact ⟨t, .read h (by decide) hread (if_pos h.kind_eq), ht⟩

/-- Further variables can be declared wherever they are seen. -/
def ReadsVariables (vars : List String) : Prop :=
  ∀ (start : Nat) {s : Session} {scope : Scope} {tokens : List Token} {room : Nat}
    {after : SymbolTable}, s.Ready scope (moreSpelling variableSpelling vars ++ tokens) (1 + room) →
      Declared (variableSymbols false start vars) s.symbols after →
        ∃ t, Completes [.moreVariables (Int32.ofNat start)] (moreSpelling variableSpelling vars)
          (variableSymbols false start vars) [.reserve (Int32.ofNat (start + vars.length))] s t ∧
            t.symbols = after

theorem exists_variableName {name : String} {rest : List String} (hrest : ReadsVariables rest)
    (start : Nat) {s : Session} {scope : Scope} {tokens : List Token} {room : Nat}
    {after : SymbolTable}
    (h : s.Ready scope (.ident name :: (moreSpelling variableSpelling rest ++ tokens)) (1 + room))
    (hdeclared : Declared (variableSymbols false start (name :: rest)) s.symbols after) :
    ∃ t, Completes [.variableName (Int32.ofNat start)]
      (.ident name :: moreSpelling variableSpelling rest)
      (variableSymbols false start (name :: rest))
      [.reserve (Int32.ofNat (start + (name :: rest).length))] s t ∧ t.symbols = after := by
  rw [Declarations.variableSymbols_cons] at hdeclared ⊢
  obtain ⟨id, next, hdeclare, hdeclared⟩ := hdeclared
  have hname : s.kind = .ident := h.kind_eq
  obtain ⟨u, hsymbol, hu, rfl⟩ := Completes.declare h.advance hdeclare
  obtain ⟨t, hmore, ht⟩ := hrest (start + 1) hu hdeclared
  refine ⟨t, ?_, ht⟩
  rw [List.length_cons, Nat.add_comm rest.length, ← Nat.add_assoc]
  apply Completes.read h (by simp [Token.ident]) (hsymbol.append hmore)
  rw [Task.perform, if_pos hname, h.lexeme_eq, Int32.ofNat_add]
  rfl

theorem readsVariables (vars : List String) : ReadsVariables vars := by
  induction vars with
  | nil =>
    rintro start s scope tokens room _ h rfl
    have hkind : s.kind ≠ .comma := by simp [h.kind_eq, moreSpelling, Token.plain]
    have hsemicolon := Completes.expect .semicolonExpected h (by decide)
    obtain ⟨t, hreserve, _⟩ := hsemicolon.append_emit (.reserve (Int32.ofNat start))
      (by simp [Instruction.reserve]) h.advance
    exact ⟨t, hreserve.unread (if_neg hkind), hreserve.translates.symbols_eq⟩
  | cons name rest ih =>
    intro start s scope tokens room after h hdeclared
    obtain ⟨t, hread, ht⟩ := exists_variableName ih start h.advance hdeclared
    exact ⟨t, .read h (by decide) hread (if_pos h.kind_eq), ht⟩

theorem exists_variablePart (vars : List String) {s : Session} {scope : Scope}
    {tokens : List Token} {room : Nat} {after : SymbolTable}
    (h : s.Ready scope (partSpelling .varSym variableSpelling vars ++ tokens) (1 + room))
    (htokens : firstKind tokens ≠ .varSym)
    (hdeclared : Declared (variableSymbols false 3 vars) s.symbols after) :
    ∃ t, Completes [.variablePart] (partSpelling .varSym variableSpelling vars)
      (variableSymbols false 3 vars) [.reserve (Int32.ofNat (3 + vars.length))] s t ∧
        t.symbols = after := by
  cases vars with
  | nil =>
    cases hdeclared
    have hkind : s.kind ≠ .varSym := by rwa [h.kind_eq]
    obtain ⟨t, hreserve, _⟩ := Completes.emit (.reserve 3) (by simp [Instruction.reserve]) h
    exact ⟨t, hreserve.unread (if_neg hkind), hreserve.translates.symbols_eq⟩
  | cons name rest =>
    obtain ⟨t, hread, ht⟩ := exists_variableName (readsVariables rest) 3 h.advance hdeclared
    exact ⟨t, .read h (by decide) hread (if_pos h.kind_eq), ht⟩

namespace Program

variable {consts : List (String × Word)} {vars : List String} {body : Statement .one}
  {tokens : List Token} {limits : Limits}

theorem SpelledBy.exists_started
    (hspelled : SpelledBy ⟨⟨consts, vars⟩, body⟩ (Token.throughPeriod tokens))
    (hroom : body.size + 3 ≤ limits.maxCodeLength) :
    ∃ s rest, Performs [.emit (.jump (Instruction.wordAddress 1))] (.initial tokens limits) s ∧
      s.symbols = .empty limits.maxSymbols ∧ firstKind rest = .period ∧
        s.Ready s.symbols.scope
          (partSpelling .constSym constantSpelling consts ++
            (partSpelling .varSym variableSpelling vars ++ (body.spelling ++ rest)))
          (1 + (body.size + 1)) := by
  obtain ⟨rest, hperiod, htokens⟩ := spelledBy_throughPeriod_iff.1 hspelled
  have hinitial : (Session.initial tokens limits).Ready
      (Session.initial tokens limits).symbols.scope
      (partSpelling .constSym constantSpelling consts ++
        (partSpelling .varSym variableSpelling vars ++ (body.spelling ++ rest.map Token.bare)))
      (1 + (1 + (body.size + 1))) := by
    refine ⟨?_, rfl, ?_⟩
    · rw [← List.append_assoc]
      exact htokens
    · simp only [Session.initial, Session.start, Code.empty, Code.size, Array.size_empty]
      omega
  obtain ⟨s, hjump, hs⟩ :=
    Completes.emit (.jump (Instruction.wordAddress 1)) (by simp [Instruction.jump]) hinitial
  rw [← Token.firstKind_map_bare] at hperiod
  refine ⟨s, rest.map Token.bare, hjump.performs, hjump.translates.symbols_eq, hperiod, ?_⟩
  rw [hjump.translates.scope_eq]
  exact hs

theorem exists_declared {s : Session} {rest : List Token} {capacity : Nat}
    (hsymbols : s.symbols = .empty capacity) (hperiod : firstKind rest = .period)
    (h : s.Ready s.symbols.scope
      (partSpelling .constSym constantSpelling consts ++
        (partSpelling .varSym variableSpelling vars ++ (body.spelling ++ rest)))
      (1 + (body.size + 1)))
    (hdistinct : (Declarations.names ⟨consts, vars⟩).Nodup)
    (hcapacity : (Declarations.names ⟨consts, vars⟩).length ≤ capacity) :
    ∃ t, Performs [.constantPart, .variablePart] s t ∧
      t.Ready (Declarations.scope ⟨consts, vars⟩) (body.spelling ++ rest) (body.size + 1) := by
  obtain ⟨middle, hconsts, hvars⟩ := declared_append_iff.1
    ((@declared_empty_iff ⟨consts, vars⟩ capacity _).2 ⟨hdistinct, hcapacity, rfl⟩)
  rw [← hsymbols] at hconsts
  obtain ⟨u, hconstants, rfl⟩ :=
    exists_constantPart consts h (firstKind_variables_ne vars body hperiod) hconsts
  have hu := h.declares (Nat.zero_add _) hconstants.translates
  obtain ⟨t, hvariables, ht⟩ :=
    exists_variablePart vars hu (firstKind_body_ne body hperiod).2 hvars
  have hready := hu.declares rfl hvariables.translates
  have hscope : t.symbols.scope = Declarations.scope ⟨consts, vars⟩ := by
    apply SymbolTable.scope_eq hdistinct
    rw [ht]
  rw [hscope] at hready
  exact ⟨t, (hconstants.append hvariables).performs, hready⟩

end Program

/--
A program whose names are properly used passes, if there is room for its symbols and its code.
-/
theorem exists_performs_program {program : Program} (hscoped : program.WellScoped)
    {tokens : List Token} {limits : Limits}
    (hspelled : program.SpelledBy (Token.throughPeriod tokens)) (hfits : program.Fits limits) :
    ∃ t, Performs Task.program (.initial tokens limits) t := by
  obtain ⟨⟨consts, vars⟩, body⟩ := program
  have hroom : body.size + 3 ≤ limits.maxCodeLength := by
    rw [← Program.length_code hscoped]
    exact hfits.code
  obtain ⟨s, rest, hjump, hsymbols, hperiod, hs⟩ := hspelled.exists_started hroom
  obtain ⟨v, hdeclared, hv⟩ :=
    Program.exists_declared hsymbols hperiod hs hscoped.distinct hfits.symbols
  have hends : Extent.one.Ends (firstKind rest) := .inr (.inr (.inr hperiod))
  obtain ⟨w, hbody⟩ := Statement.readable hscoped.scoped_body hv hends
  have hw : w.Ready _ _ (1 + 0) :=
    hv.translates (Statement.length_code hscoped.scoped_body _) hbody.translates
  obtain ⟨x, hhalt⟩ := hw.exists_emit (.system .halt)
  have hfinish : Task.finish.perform w = .ok ([], { x with symbols := x.symbols.markAll }) := by
    have hkind : w.kind = .period := by rw [hw.kind_eq, hperiod]
    rw [Task.perform, if_pos hkind, hhalt]
    rfl
  exact ⟨_, ((hjump.append hdeclared).append hbody.performs).append (.one hfinish)⟩

end PL0
