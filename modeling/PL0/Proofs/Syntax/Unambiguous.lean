import PL0.Proofs.Syntax.Basic

/-!
This module contains the proof that the grammar is unambiguous: tokens spell at most one program.
For each kind of tree it is shown that a spelling can be cut off the front of a token list in one
way only, as long as the token behind it cannot continue the tree.
-/

namespace PL0

open Token (firstKind)

namespace Level

/-- A token of this kind does not continue an expression of the level. -/
def Stops : Level → Kind → Prop
  | factor, _ => True
  | chain .product, kind => kind ≠ .times ∧ kind ≠ .slash
  | chain .sum, kind => (kind ≠ .plus ∧ kind ≠ .minus) ∧ kind ≠ .times ∧ kind ≠ .slash

instance (level : Level) (kind : Kind) : Decidable (level.Stops kind) :=
  match level with
  | factor => inferInstanceAs (Decidable True)
  | chain .product => inferInstanceAs (Decidable (_ ∧ _))
  | chain .sum => inferInstanceAs (Decidable (_ ∧ _))

theorem stops_chain_iff {tier : Tier} {kind : Kind} :
    (chain tier).Stops kind ↔
      (∀ operator : Operator tier, kind ≠ operator.kind) ∧ tier.operand.Stops kind := by
  cases tier with
  | sum =>
    apply and_congr_left'
    constructor
    · rintro ⟨hplus, hminus⟩ (_ | _)
      · exact hplus
      · exact hminus
    · intro h
      exact ⟨h .plus, h .minus⟩
  | product =>
    rw [Tier.operand, Stops, Stops, and_true]
    constructor
    · rintro ⟨htimes, hslash⟩ (_ | _)
      · exact htimes
      · exact hslash
    · intro h
      exact ⟨h .times, h .slash⟩

theorem stops_operand_operator {tier : Tier} (operator : Operator tier) :
    tier.operand.Stops operator.kind := by
  cases operator <;> decide

end Level

namespace Expression

def extend {tier : Tier} (e : Expression (.chain tier))
    (more : List (Operator tier × Expression tier.operand)) : Expression (.chain tier) :=
  more.foldl (fun left next => .binary left next.1 next.2) e

def moreSpelling {tier : Tier} (more : List (Operator tier × Expression tier.operand)) :
    List Token :=
  more.flatMap fun next => .plain next.1.kind :: next.2.spelling

theorem spelling_extend {tier : Tier} (e : Expression (.chain tier))
    (more : List (Operator tier × Expression tier.operand)) :
    (e.extend more).spelling = e.spelling ++ moreSpelling more := by
  induction more generalizing e with
  | nil => simp [extend, moreSpelling]
  | cons next more ih =>
    have hstep : e.extend (next :: more) = (Expression.binary e next.1 next.2).extend more := rfl
    rw [hstep, ih]
    simp [spelling, moreSpelling]

theorem exists_eq_extend {tier : Tier} :
    (e : Expression (.chain tier)) → ∃ first more, e = (single first).extend more
  | single operand => ⟨operand, [], rfl⟩
  | binary left operator right => by
    obtain ⟨first, more, h⟩ := exists_eq_extend left
    refine ⟨first, more ++ [(operator, right)], ?_⟩
    rw [h]
    simp [extend]

/-- The expression can be cut off the front of a token list in one way only. -/
def Unique {level : Level} (e : Expression level) : Prop :=
  ∀ (e' : Expression level) (rest rest' : List Token),
    e.spelling ++ rest = e'.spelling ++ rest' → level.Stops (firstKind rest) →
      level.Stops (firstKind rest') → e = e' ∧ rest = rest'

theorem stops_moreSpelling {tier : Tier} (more : List (Operator tier × Expression tier.operand))
    {rest : List Token} (hrest : tier.operand.Stops (firstKind rest)) :
    tier.operand.Stops (firstKind (moreSpelling more ++ rest)) := by
  cases more with
  | nil => exact hrest
  | cons next more => exact Level.stops_operand_operator next.1

theorem moreSpelling_unique {tier : Tier}
    {more more' : List (Operator tier × Expression tier.operand)} {rest rest' : List Token}
    (hunique : ∀ next ∈ more, next.2.Unique) (hrest : (Level.chain tier).Stops (firstKind rest))
    (hrest' : (Level.chain tier).Stops (firstKind rest'))
    (h : moreSpelling more ++ rest = moreSpelling more' ++ rest') :
    more = more' ∧ rest = rest' := by
  rw [Level.stops_chain_iff] at hrest hrest'
  induction more generalizing more' with
  | nil =>
    cases more' with
    | nil => exact ⟨rfl, h⟩
    | cons next' more' =>
      have hrest := hrest.1 next'.1
      rw [show rest = _ from h] at hrest
      exact absurd rfl hrest
  | cons next more ih =>
    cases more' with
    | nil =>
      have hrest' := hrest'.1 next.1
      rw [show rest' = _ from h.symm] at hrest'
      exact absurd rfl hrest'
    | cons next' more' =>
      simp only [List.mem_cons, forall_eq_or_imp] at hunique
      simp only [moreSpelling, List.flatMap_cons, List.cons_append, List.append_assoc,
        List.cons.injEq, Token.plain, Token.mk.injEq, and_true] at h
      have hoperator := Operator.kind_injective h.1
      have hoperand := hunique.1 next'.2 _ _ h.2 (stops_moreSpelling more hrest.2)
        (stops_moreSpelling more' hrest'.2)
      have hmore := ih hunique.2 hoperand.2
      exact ⟨by rw [hmore.1, Prod.ext hoperator hoperand.1], hmore.2⟩

theorem length_spelling_le_moreSpelling {tier : Tier}
    {more : List (Operator tier × Expression tier.operand)}
    {next : Operator tier × Expression tier.operand} (h : next ∈ more) :
    next.2.spelling.length ≤ (moreSpelling more).length := by
  induction more with
  | nil => simp at h
  | cons head more ih =>
    simp only [moreSpelling, List.flatMap_cons, List.length_append, List.length_cons]
    cases List.mem_cons.1 h with
    | inl heq =>
      rw [heq]
      omega
    | inr hmem =>
      have := ih hmem
      unfold moreSpelling at this
      omega

theorem unique_chain {tier : Tier} {n : Nat}
    (hoperand : ∀ e : Expression tier.operand, e.spelling.length ≤ n → e.Unique)
    (e : Expression (.chain tier)) (hlength : e.spelling.length ≤ n) : e.Unique := by
  intro e' rest rest' h hrest hrest'
  -- A chain grows to the left, but it is cut off from its first operand on.
  obtain ⟨first, more, rfl⟩ := exists_eq_extend e
  obtain ⟨first', more', rfl⟩ := exists_eq_extend e'
  have hstops := (Level.stops_chain_iff.1 hrest).2
  have hstops' := (Level.stops_chain_iff.1 hrest').2
  rw [spelling_extend, List.length_append] at hlength
  rw [spelling_extend, spelling_extend, List.append_assoc, List.append_assoc] at h
  have hfirst : first.Unique := by
    apply hoperand
    rw [spelling] at hlength
    omega
  have hmore : ∀ next ∈ more, next.2.Unique := by
    intro next hnext
    apply hoperand
    have := length_spelling_le_moreSpelling hnext
    omega
  have heq := hfirst first' _ _ h (stops_moreSpelling more hstops)
    (stops_moreSpelling more' hstops')
  have heqmore := moreSpelling_unique hmore hrest hrest' heq.2
  rw [heq.1, heqmore.1]
  exact ⟨rfl, heqmore.2⟩

theorem unique_factor {n : Nat}
    (hinner : ∀ e : Expression .expression, e.spelling.length < n → e.Unique)
    (e : Expression .factor) (hlength : e.spelling.length ≤ n) : e.Unique := by
  intro e' rest rest' h _ _
  cases e with
  | number value =>
    cases e' <;> simp_all [spelling, Token.number, Token.ident, Token.plain]
  | ident name =>
    cases e' <;> simp_all [spelling, Token.number, Token.ident, Token.plain]
  | parens inner =>
    cases e' with
    | number | ident => simp [spelling, Token.number, Token.ident, Token.plain] at h
    | parens inner' =>
      simp only [spelling, List.cons_append, List.append_assoc, List.nil_append,
        List.cons.injEq, true_and] at h
      simp only [spelling, List.length_cons, List.length_append, List.length_nil] at hlength
      have hrparen : Level.expression.Stops .rparen := by decide
      have heq := hinner inner (by omega) inner' _ _ h hrparen hrparen
      simp_all

theorem unique {level : Level} (e : Expression level) : e.Unique := by
  generalize hn : e.spelling.length = n
  -- Only parentheses make the spelling of an operand shorter, so the levels are settled one after
  -- the other for each length.
  induction n using Nat.strongRecOn generalizing level with
  | ind n ih =>
    have hfactor : ∀ e : Expression .factor, e.spelling.length ≤ n → e.Unique :=
      unique_factor fun e h => ih _ h e rfl
    have hterm : ∀ e : Expression .term, e.spelling.length ≤ n → e.Unique :=
      unique_chain hfactor
    have hexpression : ∀ e : Expression .expression, e.spelling.length ≤ n → e.Unique :=
      unique_chain hterm
    match level with
    | .factor => exact hfactor e (by omega)
    | .chain .product => exact hterm e (by omega)
    | .chain .sum => exact hexpression e (by omega)

end Expression

/-- The kinds of the tokens that can stand behind a statement. -/
def Extent.Ends : Extent → Kind → Prop
  | one, kind => kind = .semicolon ∨ kind = .endSym ∨ kind = .fiSym ∨ kind = .period
  | list, kind => kind = .endSym

theorem Extent.stops_of_ends {kind : Kind} (h : one.Ends kind) : Level.expression.Stops kind := by
  rcases h with rfl | rfl | rfl | rfl <;> decide

theorem Comparison.stops (comparison : Comparison) : Level.expression.Stops comparison.kind := by
  cases comparison <;> decide

theorem Expression.firstKind_spelling {level : Level} (e : Expression level) (rest : List Token) :
    firstKind (e.spelling ++ rest) = .number ∨ firstKind (e.spelling ++ rest) = .ident ∨
      firstKind (e.spelling ++ rest) = .lparen := by
  induction e generalizing rest with
  | number => exact .inl rfl
  | ident => exact .inr (.inl rfl)
  | parens => exact .inr (.inr rfl)
  | single operand ih => exact ih rest
  | binary left operator right ihl _ =>
    rw [spelling, List.append_assoc]
    apply ihl

theorem Expression.firstKind_spelling_ne_evenSym {level : Level} (e : Expression level)
    (rest : List Token) : firstKind (e.spelling ++ rest) ≠ .evenSym := by
  rcases e.firstKind_spelling rest with h | h | h <;> rw [h] <;> decide

theorem Condition.unique {c c' : Condition} {rest rest' : List Token}
    (h : c.spelling ++ rest = c'.spelling ++ rest')
    (hrest : Level.expression.Stops (firstKind rest))
    (hrest' : Level.expression.Stops (firstKind rest')) : c = c' ∧ rest = rest' := by
  cases c with
  | even e =>
    cases c' with
    | even e' =>
      simp only [spelling, List.cons_append, List.cons.injEq, true_and] at h
      simpa using e.unique e' rest rest' h hrest hrest'
    | compare left' comparison' right' =>
      rw [spelling, spelling, List.append_assoc] at h
      refine absurd ?_ (left'.firstKind_spelling_ne_evenSym
        (.plain comparison'.kind :: right'.spelling ++ rest'))
      rw [← h]
      rfl
  | compare left comparison right =>
    cases c' with
    | even e' =>
      rw [spelling, spelling, List.append_assoc] at h
      refine absurd ?_ (left.firstKind_spelling_ne_evenSym
        (.plain comparison.kind :: right.spelling ++ rest))
      rw [h]
      rfl
    | compare left' comparison' right' =>
      simp only [spelling, List.append_assoc, List.cons_append] at h
      have hleft := left.unique left' _ _ h comparison.stops comparison'.stops
      simp only [List.cons.injEq, Token.plain, Token.mk.injEq, and_true] at hleft
      have hright := right.unique right' _ _ hleft.2.2 hrest hrest'
      simp [hleft.1, Comparison.kind_injective hleft.2.1, hright]

namespace Statement

/-- The kind of the token that the statement starts with, if there is any. -/
def keyword? : Statement .one → Option Kind
  | empty => none
  | assign _ _ => some .ident
  | read _ => some .readSym
  | write _ => some .writeSym
  | compound _ => some .beginSym
  | ifThen _ _ => some .ifSym
  | whileDo _ _ => some .whileSym

theorem firstKind_spelling (s : Statement .one) (rest : List Token) :
    firstKind (s.spelling ++ rest) = s.keyword?.getD (firstKind rest) := by
  cases s <;> rfl

theorem not_ends_of_keyword {s : Statement .one} {kind : Kind} (h : s.keyword? = some kind) :
    ¬ Extent.one.Ends kind := by
  cases s <;> cases h <;> simp [Extent.Ends]

theorem keyword?_unique {s s' : Statement .one} {rest rest' : List Token}
    (h : s.spelling ++ rest = s'.spelling ++ rest') (hrest : Extent.one.Ends (firstKind rest))
    (hrest' : Extent.one.Ends (firstKind rest')) : s.keyword? = s'.keyword? := by
  have hkind := congrArg firstKind h
  rw [firstKind_spelling, firstKind_spelling] at hkind
  cases hs : s.keyword? with
  | none =>
    cases hs' : s'.keyword? with
    | none => rfl
    | some kind' =>
      rw [hs, hs', Option.getD_none, Option.getD_some] at hkind
      rw [hkind] at hrest
      exact absurd hrest (not_ends_of_keyword hs')
  | some kind =>
    cases hs' : s'.keyword? with
    | none =>
      rw [hs, hs', Option.getD_none, Option.getD_some] at hkind
      rw [← hkind] at hrest'
      exact absurd hrest' (not_ends_of_keyword hs)
    | some kind' =>
      rw [hs, hs'] at hkind
      exact congrArg some hkind

theorem unique {extent : Extent} {s s' : Statement extent} {rest rest' : List Token}
    (h : s.spelling ++ rest = s'.spelling ++ rest') (hrest : extent.Ends (firstKind rest))
    (hrest' : extent.Ends (firstKind rest')) : s = s' ∧ rest = rest' := by
  -- The first token tells which form the other statement has, and all parts are cut off from there.
  induction s generalizing rest rest' with
  | empty =>
    have hkeyword := keyword?_unique h hrest hrest'
    cases s' with
    | empty => exact ⟨rfl, h⟩
    | _ => cases hkeyword
  | assign name value =>
    have hkeyword := keyword?_unique h hrest hrest'
    cases s' with
    | assign name' value' =>
      simp only [spelling, List.cons_append, List.cons.injEq, Token.ident_inj, true_and] at h
      have hvalue := value.unique value' _ _ h.2 (Extent.stops_of_ends hrest)
        (Extent.stops_of_ends hrest')
      rw [h.1, hvalue.1]
      exact ⟨rfl, hvalue.2⟩
    | _ => cases hkeyword
  | read name =>
    have hkeyword := keyword?_unique h hrest hrest'
    cases s' with
    | read name' =>
      simp only [spelling, List.cons_append, List.nil_append, List.cons.injEq, Token.ident_inj,
        true_and] at h
      rw [h.1]
      exact ⟨rfl, h.2⟩
    | _ => cases hkeyword
  | write value =>
    have hkeyword := keyword?_unique h hrest hrest'
    cases s' with
    | write value' =>
      simp only [spelling, List.cons_append, List.cons.injEq, true_and] at h
      have hvalue := value.unique value' _ _ h (Extent.stops_of_ends hrest)
        (Extent.stops_of_ends hrest')
      rw [hvalue.1]
      exact ⟨rfl, hvalue.2⟩
    | _ => cases hkeyword
  | compound body ih =>
    have hkeyword := keyword?_unique h hrest hrest'
    cases s' with
    | compound body' =>
      simp only [spelling, List.cons_append, List.append_assoc, List.cons.injEq, true_and] at h
      have hend : Extent.list.Ends .endSym := rfl
      have hbody := ih h hend hend
      rw [hbody.1]
      exact ⟨rfl, (List.cons.inj hbody.2).2⟩
    | _ => cases hkeyword
  | ifThen condition body ih =>
    have hkeyword := keyword?_unique h hrest hrest'
    cases s' with
    | ifThen condition' body' =>
      simp only [spelling, List.cons_append, List.append_assoc, List.cons.injEq, true_and] at h
      have hthen : Level.expression.Stops .thenSym := by decide
      have hfi : Extent.one.Ends .fiSym := .inr (.inr (.inl rfl))
      have hcondition := Condition.unique h hthen hthen
      have hbody := ih (List.cons.inj hcondition.2).2 hfi hfi
      rw [hcondition.1, hbody.1]
      exact ⟨rfl, (List.cons.inj hbody.2).2⟩
    | _ => cases hkeyword
  | whileDo condition body ih =>
    have hkeyword := keyword?_unique h hrest hrest'
    cases s' with
    | whileDo condition' body' =>
      simp only [spelling, List.cons_append, List.append_assoc, List.cons.injEq, true_and] at h
      have hdo : Level.expression.Stops .doSym := by decide
      have hcondition := Condition.unique h hdo hdo
      have hbody := ih (List.cons.inj hcondition.2).2 hrest hrest'
      rw [hcondition.1, hbody.1]
      exact ⟨rfl, hbody.2⟩
    | _ => cases hkeyword
  | last statement ih =>
    have hone : Extent.one.Ends (firstKind rest) := .inr (.inl hrest)
    cases s' with
    | last statement' =>
      have hstatement := ih h hone (.inr (.inl hrest'))
      rw [hstatement.1]
      exact ⟨rfl, hstatement.2⟩
    | followed first' more' =>
      rw [spelling, spelling, List.append_assoc] at h
      have hsemicolon : Extent.one.Ends .semicolon := .inl rfl
      have hstatement := ih h hone hsemicolon
      -- Behind the same statement there would be a semicolon and no semicolon.
      rw [hstatement.2] at hrest
      cases hrest
  | followed first more ihf ihm =>
    have hsemicolon : Extent.one.Ends .semicolon := .inl rfl
    cases s' with
    | last statement' =>
      rw [spelling, spelling, List.append_assoc] at h
      have hstatement := ihf h hsemicolon (.inr (.inl hrest'))
      rw [← hstatement.2] at hrest'
      cases hrest'
    | followed first' more' =>
      rw [spelling, spelling, List.append_assoc, List.append_assoc] at h
      have hfirst := ihf h hsemicolon hsemicolon
      simp only [List.cons_append, List.cons.injEq, true_and] at hfirst
      have hmore := ihm hfirst.2 hrest hrest'
      rw [hfirst.1, hmore.1]
      exact ⟨rfl, hmore.2⟩

end Statement

namespace Declarations

/-- The spelling of an item can be cut off the front of a token list in one way only. -/
def UniqueItem {α : Type} (item : α → List Token) : Prop :=
  ∀ (a b : α) (rest rest' : List Token), item a ++ rest = item b ++ rest' → a = b ∧ rest = rest'

theorem uniqueItem_constantSpelling : UniqueItem constantSpelling := by
  rintro ⟨name, value⟩ ⟨name', value'⟩ rest rest' h
  simp_all [constantSpelling, Token.ident, Token.number]

theorem uniqueItem_variableSpelling : UniqueItem variableSpelling := by
  intro name name' rest rest' h
  simpa [variableSpelling, Token.ident] using h

theorem moreSpelling_unique {α : Type} {item : α → List Token} (hitem : UniqueItem item)
    {items items' : List α} {rest rest' : List Token}
    (h : moreSpelling item items ++ rest = moreSpelling item items' ++ rest') :
    items = items' ∧ rest = rest' := by
  induction items generalizing items' with
  | nil =>
    cases items' with
    | nil => simpa [moreSpelling] using h
    | cons => simp [moreSpelling, Token.plain] at h
  | cons a items ih =>
    cases items' with
    | nil => simp [moreSpelling, Token.plain] at h
    | cons b items' =>
      simp only [moreSpelling, List.cons_append, List.append_assoc, List.cons.injEq,
        true_and] at h
      have ha := hitem a b _ _ h
      have hitems := ih ha.2
      rw [ha.1, hitems.1]
      exact ⟨rfl, hitems.2⟩

theorem partSpelling_unique {α : Type} {keyword : Kind} {item : α → List Token}
    (hitem : UniqueItem item) {items items' : List α} {rest rest' : List Token}
    (hrest : firstKind rest ≠ keyword) (hrest' : firstKind rest' ≠ keyword)
    (h : partSpelling keyword item items ++ rest = partSpelling keyword item items' ++ rest') :
    items = items' ∧ rest = rest' := by
  cases items with
  | nil =>
    cases items' with
    | nil => exact ⟨rfl, h⟩
    | cons b items' =>
      rw [show rest = _ from h] at hrest
      exact absurd rfl hrest
  | cons a items =>
    cases items' with
    | nil =>
      rw [show rest' = _ from h.symm] at hrest'
      exact absurd rfl hrest'
    | cons b items' =>
      simp only [partSpelling, List.cons_append, List.append_assoc, List.cons.injEq,
        true_and] at h
      have ha := hitem a b _ _ h
      have hitems := moreSpelling_unique hitem ha.2
      rw [ha.1, hitems.1]
      exact ⟨rfl, hitems.2⟩

end Declarations

namespace Program

theorem firstKind_body_ne (s : Statement .one) {rest : List Token}
    (hrest : firstKind rest = .period) :
    firstKind (s.spelling ++ rest) ≠ .constSym ∧ firstKind (s.spelling ++ rest) ≠ .varSym := by
  rw [Statement.firstKind_spelling, hrest]
  cases s <;> simp [Statement.keyword?]

theorem firstKind_variables_ne (names : List String) (s : Statement .one) {rest : List Token}
    (hrest : firstKind rest = .period) :
    firstKind (Declarations.partSpelling .varSym Declarations.variableSpelling names ++
      (s.spelling ++ rest)) ≠ .constSym := by
  cases names with
  | nil => exact (firstKind_body_ne s hrest).1
  | cons => simp [Declarations.partSpelling, Token.plain]

theorem spelling_injective {program program' : Program}
    (h : program.spelling = program'.spelling) : program = program' := by
  rcases program with ⟨⟨consts, vars⟩, body⟩
  rcases program' with ⟨⟨consts', vars'⟩, body'⟩
  simp only [spelling, Declarations.spelling, List.append_assoc] at h
  have hconsts := Declarations.partSpelling_unique Declarations.uniqueItem_constantSpelling
    (firstKind_variables_ne vars body rfl) (firstKind_variables_ne vars' body' rfl) h
  have hvars := Declarations.partSpelling_unique Declarations.uniqueItem_variableSpelling
    (firstKind_body_ne body rfl).2 (firstKind_body_ne body' rfl).2 hconsts.2
  have hperiod : Extent.one.Ends .period := .inr (.inr (.inr rfl))
  have hbody := Statement.unique hvars.2 hperiod hperiod
  rw [hconsts.1, hvars.1, hbody.1]

/-- Tokens spell at most one program. -/
theorem eq_of_spelledBy {program program' : Program} {tokens : List Token}
    (h : program.SpelledBy tokens) (h' : program'.SpelledBy tokens) : program = program' := by
  apply spelling_injective
  rw [← h, ← h']

end Program
end PL0
