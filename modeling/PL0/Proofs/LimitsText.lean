import PL0.Limits.Reader
import PL0.Proofs.Json.Indented

/-!
This module contains what limits are read from a text of a document. How the document is laid out
has no influence: only its members count, one after the other, or its items. Members override
defaults, and the first one with an unknown or a repeated key is reported.
-/

namespace PL0

namespace Json

/-! ### Commas -/

/-- The comma in front of an item that is not the first. -/
def lead (first : Bool) : List Lexeme :=
  if first then [] else [.comma]

/-- Items with commas between them, and one in front if none of them is the first. -/
def separated : Bool → List (List Lexeme) → List Lexeme
  | _, [] => []
  | first, item :: items => lead first ++ (item ++ separated false items)

theorem separated_true (items : List (List Lexeme)) :
    separated true items = [.comma].intercalate items := by
  induction items with
  | nil => rfl
  | cons item items ih =>
    cases items with
    | nil => simp [separated, lead, List.intercalate_singleton]
    | cons next items =>
      rw [List.intercalate_cons_cons, ← ih]
      simp [separated, lead]

theorem delimited_separated {close : Lexeme} {closing : Char} (h : Closes close closing)
    (items : List (List Lexeme)) (more : List Lexeme) :
    Delimited (separated false items ++ close :: more) := by
  cases items with
  | nil => exact h.delimited more
  | cons item items => exact delimited_comma _

/-! ### Naturals -/

theorem absorb_eq {number : Nat} {digits : List Char}
    (h : Nat.ofDigitChars 10 digits number < UInt64.size) :
    absorb number digits = (Nat.ofDigitChars 10 digits number, 0) := by
  induction digits generalizing number with
  | nil => rfl
  | cons c digits ih =>
    rw [Nat.ofDigitChars_cons, Nat.mul_comm] at h ⊢
    have hlonger := Decimal.le_ofDigitChars (number * 10 + (c.toNat - '0'.toNat)) digits
    rw [absorb, if_pos (Nat.lt_of_le_of_lt hlonger h)]
    exact ih h

theorem Numeral.value_ofInt {n : Nat} (h : n < UInt64.size) :
    (ofInt n).value = .ok (.natural n) := by
  have habsorb : absorb 0 (Nat.toDigits 10 n) = (n, 0) := by
    have hvalue := Nat.ofDigitChars_ten_toDigits (n := n)
    rw [absorb_eq (by rwa [hvalue]), hvalue]
  have hnumeral : ofInt n = ⟨false, Nat.toDigits 10 n, [], none⟩ := rfl
  simp [hnumeral, value, habsorb]

end Json

namespace Limits

open Json

/-! ### Settings -/

def get (limits : Limits) : Field → Nat
  | .maxSymbols => limits.maxSymbols
  | .maxCodeLength => limits.maxCodeLength
  | .maxTokens => limits.maxTokens

theorem get_set (limits : Limits) (field other : Field) (value : Nat) :
    (limits.set field value).get other = if other = field then value else limits.get other := by
  cases field <;> cases other <;> rfl

def setAll (limits : Limits) (settings : List (Field × Nat)) : Limits :=
  settings.foldl (fun limits setting => limits.set setting.1 setting.2) limits

theorem get_setAll {settings : List (Field × Nat)} (h : (settings.map Prod.fst).Nodup)
    (limits : Limits) (field : Field) :
    (limits.setAll settings).get field = (settings.lookup field).getD (limits.get field) := by
  induction settings generalizing limits with
  | nil => rfl
  | cons setting settings ih =>
    obtain ⟨first, value⟩ := setting
    obtain ⟨hfresh, hnodup⟩ := List.nodup_cons.1 h
    have htail := ih hnodup (limits.set first value)
    rw [get_set] at htail
    rw [setAll, List.foldl_cons, List.lookup_cons]
    refine htail.trans ?_
    by_cases hfield : field = first
    · subst hfield
      have hlookup : settings.lookup field = none := by
        rw [List.lookup_eq_none_iff]
        intro other hother
        rw [bne_iff_ne]
        rintro rfl
        exact hfresh (List.mem_map.2 ⟨other, hother, rfl⟩)
      rw [hlookup, if_pos rfl, beq_self_eq_true]
      rfl
    · rw [if_neg hfield, beq_false_of_ne hfield]

namespace Field

theorem ofName?_name (field : Field) : ofName? field.name = some field := by
  cases field <;> rfl

theorem name_eq_of_ofName? {field : Field} {key : String} (h : ofName? key = some field) :
    field.name = key := by
  have hfound := List.find?_some h
  exact eq_of_beq hfound

theorem name_injective {field other : Field} (h : field.name = other.name) : field = other := by
  have hsome : some field = some other := by
    rw [← ofName?_name, h, ofName?_name]
  exact Option.some.inj hsome

theorem mem_all (field : Field) : field ∈ all := by
  cases field <;> decide

theorem ofName?_eq_none_iff {key : String} :
    ofName? key = none ↔ ∀ field : Field, field.name ≠ key := by
  simp [ofName?, mem_all]

end Field

/-- The limits that the members of an object give; `seen` are the fields met so far. -/
def ofMembers (seen : List Field) (limits : Limits) :
    List (String × Nat) → Except ReadError Limits
  | [] => .ok limits
  | (key, value) :: members =>
    match Field.ofName? key with
    | none => .error (.unknownField key)
    | some field =>
      if field ∈ seen then .error (.repeatedField field)
      else ofMembers (field :: seen) (limits.set field value) members

def named (settings : List (Field × Nat)) : List (String × Nat) :=
  settings.map fun setting => (setting.1.name, setting.2)

theorem ofMembers_named_append {settings : List (Field × Nat)} {seen : List Field}
    (hnodup : (settings.map Prod.fst).Nodup) (hfresh : ∀ setting ∈ settings, setting.1 ∉ seen)
    (limits : Limits) (members : List (String × Nat)) :
    ofMembers seen limits (named settings ++ members) =
      ofMembers ((settings.map Prod.fst).reverse ++ seen) (limits.setAll settings) members := by
  induction settings generalizing seen limits with
  | nil => rfl
  | cons setting settings ih =>
    obtain ⟨hhead, hnodup⟩ := List.nodup_cons.1 hnodup
    obtain ⟨hfirst, hfresh⟩ := List.forall_mem_cons.1 hfresh
    have hlater : ∀ other ∈ settings, other.1 ∉ setting.1 :: seen := by
      intro other hother hmem
      obtain heq | hseen := List.mem_cons.1 hmem
      · exact hhead (heq ▸ List.mem_map_of_mem hother)
      · exact hfresh other hother hseen
    rw [named, List.map_cons, List.cons_append, ofMembers]
    simp only [Field.ofName?_name, if_neg hfirst]
    refine (ih hnodup hlater _).trans ?_
    rw [List.map_cons, List.reverse_cons, List.append_assoc, setAll, setAll, List.foldl_cons]
    rfl

/-! ### Reading -/

section

variable {first : Bool} {text start rest : List Char} {lexeme : Lexeme} {more : List Lexeme}
variable {unset : List Field} {limits : Limits} {value : Nat}

/-- An item begins at `start`, behind a comma if it is not the first. -/
def Begins (first : Bool) (text start : List Char) : Prop :=
  ∃ c tail, skipSpace text = c :: tail ∧ c ≠ ']' ∧ c ≠ '\x7d' ∧
    readSeparator first (c :: tail) = .ok start

theorem exists_begins (h : Laid (lead first ++ lexeme :: more) text)
    (hopening : lexeme.isOpening = true) :
    ∃ piece rest, LexemeSpelling lexeme piece ∧ Laid more rest ∧
      Begins first text (piece ++ rest) := by
  cases first with
  | true =>
    obtain ⟨piece, rest, hpiece, hrest, hskip⟩ := Laid.exists_skipSpace h
    obtain ⟨c, tail, rfl, _, hc⟩ := hpiece.exists_cons
    exact ⟨_, rest, hpiece, hrest, c, tail ++ rest, hskip, (hc hopening).1, (hc hopening).2, rfl⟩
  | false =>
    obtain ⟨after, hafter, hcomma⟩ := Laid.exists_mark h Lexeme.letters?_comma
    obtain ⟨piece, rest, hpiece, hrest, hskip⟩ := hafter.exists_skipSpace
    refine ⟨piece, rest, hpiece, hrest, ',', after, hcomma, by decide, by decide, ?_⟩
    rw [← hskip]
    rfl

theorem part_ok {α : Type} (read : α) : part (.ok read) = .ok read := rfl

theorem readKey_append {key : String} {piece : List Char} (h : LexemeSpelling (.str key) piece)
    (rest : List Char) :
    readKey (piece ++ rest) =
      (Field.ofName? key).elim (.error (.unknownField key)) fun field => .ok (field, rest) := by
  obtain ⟨body, hbody, hread⟩ := h.exists_readString rest
  rw [hbody, readKey, hread, part_ok]
  simp only [bind, Except.bind, String.ofList_toList]
  cases Field.ofName? key <;> rfl

theorem exists_readColon (h : Laid (.colon :: more) text) :
    ∃ rest, Laid more rest ∧ readColon text = .ok rest := by
  obtain ⟨rest, hrest, hskip⟩ := h.exists_mark Lexeme.letters?_colon
  refine ⟨rest, hrest, ?_⟩
  rw [readColon, hskip]
  rfl

theorem exists_readLimit (h : Laid (.number (.ofInt value) :: more) text) (hmore : Delimited more)
    (hvalue : value < UInt64.size) :
    ∃ rest, Laid more rest ∧ readLimit text = .ok (value, rest) := by
  obtain ⟨rest, hrest, hstart, hread⟩ := h.exists_number hmore
  refine ⟨rest, hrest, ?_⟩
  have hnumber : readNumber (skipSpace text) = .ok (.natural value, rest) := by
    rw [readNumber, hread]
    simp only [bind, Except.bind, Numeral.value_ofInt hvalue]
    rfl
  have hnumeric : (skipSpace text).head?.any (fun c => c = '-' ∨ c.isDigit) = true := by
    revert hstart
    cases (skipSpace text).head? with
    | none => exact id
    | some c => simp [startsNumber]
  rw [readLimit, if_pos hnumeric, hnumber, part_ok]
  rfl

theorem readEnd_of_laid (h : Laid [] rest) (limits : Limits) :
    readEnd (limits, rest) = .ok limits := by
  rw [readEnd, h.skipSpace_eq_nil]
  rfl

theorem readMembers_close (h : skipSpace text = '\x7d' :: rest) :
    readMembers first unset limits text = .ok (limits, rest) := by
  rw [readMembers.eq_def, h]
  rfl

theorem readMembers_of_begins (h : Begins first text start) :
    readMembers first unset limits text =
      (readKey start >>= fun key =>
        if key.1 ∈ unset then
          readColon key.2 >>= fun text =>
            readLimit text >>= fun limit =>
              readMembers false (unset.erase key.1) (limits.set key.1 limit.1) limit.2
        else .error (.repeatedField key.1)) := by
  obtain ⟨c, tail, hskip, _, hc, hstart⟩ := h
  rw [readMembers.eq_def, hskip]
  split
  case h_1 heq => exact absurd (List.cons.inj heq).1 hc
  case h_2 heq => cases heq
  case h_3 =>
    rw [hstart]
    rfl

theorem readElements_close (h : skipSpace text = ']' :: rest) :
    readElements first unset limits text = .ok (limits, rest) := by
  rw [readElements.eq_def, h]
  rfl

theorem readElements_of_begins (h : Begins first text start) (hopening : start.head? ≠ some ']')
    (field : Field) :
    readElements first (field :: unset) limits text =
      (readLimit start >>= fun limit =>
        readElements false unset (limits.set field limit.1) limit.2) := by
  obtain ⟨c, tail, hskip, hc, _, hstart⟩ := h
  rw [readElements.eq_def, hskip]
  split
  case h_1 heq => exact absurd (List.cons.inj heq).1 hc
  case h_2 heq => cases heq
  case h_3 heq _ _ => cases heq
  case h_4 heq _ _ =>
    cases heq
    rw [hstart]
    simp only [bind, Except.bind, if_neg hopening]

def memberLexemes (member : String × Nat) : List Lexeme :=
  [.str member.1, .colon, .number (.ofInt member.2)]

theorem readMembers_of_laid {members : List (String × Nat)} {seen : List Field}
    (hvalues : ∀ member ∈ members, member.2 < UInt64.size) (hnodup : unset.Nodup)
    (hunset : ∀ field, field ∈ unset ↔ field ∉ seen)
    (h : Laid (separated first (members.map memberLexemes) ++ [.closeObject]) text) :
    (readMembers first unset limits text >>= readEnd) = ofMembers seen limits members := by
  -- Each member takes its field from the unset ones to those that are seen, so that all fields stay
  -- on one of the two sides.
  induction members generalizing first unset seen limits text with
  | nil =>
    obtain ⟨rest, hrest, hskip⟩ := h.exists_mark rfl
    rw [readMembers_close hskip]
    exact readEnd_of_laid hrest limits
  | cons member members ih =>
    obtain ⟨key, value⟩ := member
    obtain ⟨hvalue, hvalues⟩ := List.forall_mem_cons.1 hvalues
    rw [List.map_cons, separated, List.append_assoc, List.append_assoc] at h
    obtain ⟨piece, after, hpiece, hafter, hbegins⟩ := exists_begins h rfl
    rw [readMembers_of_begins hbegins, readKey_append hpiece, ofMembers]
    cases Field.ofName? key with
    | none => rfl
    | some field =>
      by_cases hseen : field ∈ seen
      · have hset : field ∉ unset := fun hmem => (hunset field).1 hmem hseen
        simp only [Option.elim_some, bind, Except.bind, if_neg hset, if_pos hseen]
      · have hset : field ∈ unset := (hunset field).2 hseen
        obtain ⟨colon, hcolon, hreadColon⟩ := exists_readColon hafter
        obtain ⟨rest, hrest, hreadLimit⟩ :=
          exists_readLimit hcolon (delimited_separated .object _ _) hvalue
        have hlater : ∀ other, other ∈ unset.erase field ↔ other ∉ field :: seen := by
          intro other
          rw [hnodup.mem_erase_iff, hunset, List.mem_cons, not_or]
        simp only [Option.elim_some, bind, Except.bind, if_pos hset, if_neg hseen, hreadColon,
          hreadLimit]
        exact ih hvalues (hnodup.erase field) hlater hrest

def elementLexemes (value : Nat) : List Lexeme :=
  [.number (.ofInt value)]

theorem readElements_of_laid {values : List Nat} (hvalues : ∀ value ∈ values, value < UInt64.size)
    (hlength : values.length ≤ unset.length)
    (h : Laid (separated first (values.map elementLexemes) ++ [.closeArray]) text) :
    (readElements first unset limits text >>= readEnd) =
      .ok (limits.setAll (unset.zip values)) := by
  induction values generalizing first unset limits text with
  | nil =>
    obtain ⟨rest, hrest, hskip⟩ := h.exists_mark rfl
    rw [readElements_close hskip, List.zip_nil_right]
    exact readEnd_of_laid hrest limits
  | cons value values ih =>
    obtain ⟨hvalue, hvalues⟩ := List.forall_mem_cons.1 hvalues
    cases unset with
    | nil => cases hlength
    | cons field unset =>
      rw [List.map_cons, separated, List.append_assoc, List.append_assoc] at h
      obtain ⟨piece, after, hpiece, hafter, hbegins⟩ := exists_begins h rfl
      have hopening : (piece ++ after).head? ≠ some ']' := by
        obtain ⟨c, tail, rfl, _, hc⟩ := hpiece.exists_cons
        intro hhead
        exact (hc rfl).1 (Option.some.inj hhead)
      obtain ⟨rest, hrest, hreadLimit⟩ :=
        exists_readLimit (.cons isSpace_nil hpiece hafter) (delimited_separated .array _ _) hvalue
      rw [List.nil_append] at hreadLimit
      rw [readElements_of_begins hbegins hopening, hreadLimit]
      simp only [bind, Except.bind]
      exact ih hvalues (Nat.le_of_succ_le_succ hlength) hrest

end

/-! ### Documents -/

/-- An object whose values are naturals. -/
def object (members : List (String × Nat)) : Document :=
  .obj (members.map fun member => (member.1, .number (.ofInt member.2)))

/-- A list of naturals. -/
def list (values : List Nat) : Document :=
  .arr (values.map fun value : Nat => .number (.ofInt value))

section

variable {text : String} {members : List (String × Nat)} {values : List Nat}

theorem ofJson_object (h : (object members).IsTextOf text.toList)
    (hvalues : ∀ member ∈ members, member.2 < UInt64.size) :
    ofJson text = ofMembers [] {} members := by
  rw [Document.IsTextOf, object, Document.lexemes, Document.memberLexemes_eq_map, List.map_map,
    ← separated_true] at h
  obtain ⟨rest, hrest, hskip⟩ := Laid.exists_mark h rfl
  rw [ofJson, hskip]
  refine readMembers_of_laid hvalues (by decide) ?_ hrest
  intro field
  simp [Field.mem_all]

theorem ofJson_list (h : (list values).IsTextOf text.toList)
    (hvalues : ∀ value ∈ values, value < UInt64.size) (hlength : values.length ≤ Field.all.length) :
    ofJson text = .ok (setAll {} (Field.all.zip values)) := by
  rw [Document.IsTextOf, list, Document.lexemes, Document.itemLexemes_eq_map, List.map_map,
    ← separated_true] at h
  obtain ⟨rest, hrest, hskip⟩ := Laid.exists_mark h rfl
  rw [ofJson, hskip]
  exact readElements_of_laid hvalues hlength hrest

end

/-- Keys that may stand in one object: each names a field, and none repeats an earlier one. -/
def Admissible (keys : List String) : Prop :=
  keys.Nodup ∧ ∀ key ∈ keys, ∃ field : Field, field.name = key

theorem map_fst_named (settings : List (Field × Nat)) :
    (named settings).map Prod.fst = (settings.map Prod.fst).map Field.name := by
  simp [named]

theorem admissible_named {settings : List (Field × Nat)} (h : (settings.map Prod.fst).Nodup) :
    Admissible ((named settings).map Prod.fst) := by
  rw [map_fst_named]
  constructor
  · refine List.pairwise_map.2 (h.imp ?_)
    intro field other hne hname
    exact hne (Field.name_injective hname)
  · intro key hkey
    obtain ⟨field, _, hname⟩ := List.mem_map.1 hkey
    exact ⟨field, hname⟩

theorem exists_refused {settings : List (Field × Nat)} (hnodup : (settings.map Prod.fst).Nodup)
    {members : List (String × Nat)}
    (h : ¬ Admissible ((named settings ++ members).map Prod.fst)) :
    ∃ (settings' : List (Field × Nat)) (key : String) (value : Nat) (later : List (String × Nat)),
      named settings ++ members = named settings' ++ (key, value) :: later ∧
        (settings'.map Prod.fst).Nodup ∧
          (Field.ofName? key = none ∨
            ∃ field ∈ settings'.map Prod.fst, Field.ofName? key = some field) := by
  induction members generalizing settings with
  | nil =>
    rw [List.append_nil] at h
    exact absurd (admissible_named hnodup) h
  | cons member members ih =>
    obtain ⟨key, value⟩ := member
    cases hfield : Field.ofName? key with
    | none => exact ⟨settings, key, value, members, rfl, hnodup, .inl hfield⟩
    | some field =>
      by_cases hmem : field ∈ settings.map Prod.fst
      · exact ⟨settings, key, value, members, rfl, hnodup, .inr ⟨field, hmem, hfield⟩⟩
      · -- The key is taken over into the settings.
        have hsplit : named settings ++ (key, value) :: members =
            named (settings ++ [(field, value)]) ++ members := by
          simp [named, Field.name_eq_of_ofName? hfield]
        rw [hsplit] at h ⊢
        refine ih ?_ h
        rw [List.map_append, List.map_singleton, List.nodup_append]
        refine ⟨hnodup, by simp, ?_⟩
        intro other hother last hlast heq
        rw [heq, List.mem_singleton.1 hlast] at hother
        exact hmem hother

section

variable {text : String}

theorem ofJson_named {settings : List (Field × Nat)} (hnodup : (settings.map Prod.fst).Nodup)
    (hvalues : ∀ setting ∈ settings, setting.2 < UInt64.size)
    (h : (object (named settings)).IsTextOf text.toList) :
    ofJson text = .ok (setAll {} settings) := by
  have hmembers : ∀ member ∈ named settings, member.2 < UInt64.size := by
    rw [named, List.forall_mem_map]
    exact hvalues
  have hread := ofMembers_named_append hnodup (fun setting _ => List.not_mem_nil) {} []
  rw [List.append_nil] at hread
  rw [ofJson_object h hmembers, hread]
  rfl

theorem ofJson_refused {members : List (String × Nat)}
    (hvalues : ∀ member ∈ members, member.2 < UInt64.size)
    (h : (object members).IsTextOf text.toList)
    (hkeys : ¬ Admissible (members.map Prod.fst)) :
    ∃ earlier key value later, members = earlier ++ (key, value) :: later ∧
      Admissible (earlier.map Prod.fst) ∧
      ((∀ field : Field, field.name ≠ key) ∧ ofJson text = .error (.unknownField key) ∨
        ∃ field : Field, field.name = key ∧ key ∈ earlier.map Prod.fst ∧
          ofJson text = .error (.repeatedField field)) := by
  obtain ⟨settings, key, value, later, hsplit, hnodup, hrefused⟩ :=
    @exists_refused [] List.nodup_nil members hkeys
  change members = named settings ++ (key, value) :: later at hsplit
  refine ⟨named settings, key, value, later, hsplit, admissible_named hnodup, ?_⟩
  have hread : ofJson text =
      ofMembers ((settings.map Prod.fst).reverse ++ []) (setAll {} settings)
        ((key, value) :: later) := by
    rw [ofJson_object h hvalues, hsplit]
    exact ofMembers_named_append hnodup (fun setting _ => List.not_mem_nil) {} _
  rw [hread, ofMembers]
  obtain hfield | ⟨field, hmem, hfield⟩ := hrefused
  · left
    rw [hfield]
    exact ⟨Field.ofName?_eq_none_iff.1 hfield, rfl⟩
  · right
    have hname := Field.name_eq_of_ofName? hfield
    have hseen : field ∈ (settings.map Prod.fst).reverse ++ [] := by
      simpa using hmem
    refine ⟨field, hname, ?_, ?_⟩
    · rw [map_fst_named, ← hname]
      exact List.mem_map_of_mem hmem
    · simp only [hfield, if_pos hseen]

end

/--
However a text is laid out: An object whose keys name distinct fields, in any order, overrides just
the defaults of these fields. A list does the same as the object that gives its values to the first
fields. An object with other keys is refused for the first of them that names no field or repeats an
earlier one.
-/
theorem ofJson_overrides :
    (∀ (settings : List (Field × Nat)) (text : String), (settings.map Prod.fst).Nodup →
      (∀ setting ∈ settings, setting.2 < UInt64.size) →
      (object (named settings)).IsTextOf text.toList →
      ∃ limits, ofJson text = .ok limits ∧
        ∀ field, limits.get field = (settings.lookup field).getD (get {} field)) ∧
    (∀ (values : List Nat) (text text' : String), values.length ≤ 3 →
      (∀ value ∈ values, value < UInt64.size) →
      (list values).IsTextOf text.toList →
      (object (named (Field.all.zip values))).IsTextOf text'.toList →
      ∃ limits, ofJson text = .ok limits ∧ ofJson text' = .ok limits) ∧
    (∀ (members : List (String × Nat)) (text : String),
      (∀ member ∈ members, member.2 < UInt64.size) →
      (object members).IsTextOf text.toList →
      ¬ Admissible (members.map Prod.fst) →
      ∃ earlier key value later, members = earlier ++ (key, value) :: later ∧
        Admissible (earlier.map Prod.fst) ∧
        ((∀ field : Field, field.name ≠ key) ∧ ofJson text = .error (.unknownField key) ∨
          ∃ field : Field, field.name = key ∧ key ∈ earlier.map Prod.fst ∧
            ofJson text = .error (.repeatedField field))) := by
  refine ⟨?_, ?_, ?_⟩
  · intro settings text hnodup hvalues htext
    exact ⟨_, ofJson_named hnodup hvalues htext, get_setAll hnodup {}⟩
  · intro values text text' hlength hvalues htext htext'
    have hnodup : ((Field.all.zip values).map Prod.fst).Nodup := by
      rw [List.zip_eq_zip_take_min, List.map_fst_zip (by simp)]
      exact List.Nodup.sublist (List.take_sublist _ _) (by decide)
    refine ⟨_, ofJson_list htext hvalues hlength, ofJson_named hnodup ?_ htext'⟩
    intro setting hsetting
    exact hvalues setting.2 (List.of_mem_zip hsetting).2
  · intro members text hvalues htext hkeys
    exact ofJson_refused hvalues htext hkeys

/-- Two fields, not in their order, with space of each kind. -/
def spaced : String :=
  " \x7b\t\"max_tokens\" :\n18446744073709551615 , \"max_symbols\":7\r\x7d\n"

theorem isTextOf_spaced :
    (object [("max_tokens", 18446744073709551615), ("max_symbols", 7)]).IsTextOf spaced.toList := by
  have hspace {space : List Char} (h : space.all isSpace = true) : IsSpace space :=
    List.all_eq_true.1 h
  have hmark (lexeme : Lexeme) {c : Char} (h : lexeme.letters? = some [c]) :
      LexemeSpelling lexeme [c] := .fixed h
  have hkey (key : String) : LexemeSpelling (.str key) (quote key) :=
    .str (stringSpelling_flatMap_escape key.toList)
  have hlimit (value : Nat) : LexemeSpelling (.number (.ofInt value)) (Nat.toDigits 10 value) :=
    .number (numeralSpelling_ofInt value)
  have hend := Laid.cons (@hspace ['\r'] rfl) (hmark .closeObject rfl) (.nil (@hspace ['\n'] rfl))
  have hsecond := Laid.cons (@hspace [' '] rfl) (hkey "max_symbols")
    (.cons isSpace_nil (hmark .colon rfl) (.cons isSpace_nil (hlimit 7) hend))
  have hfirst := Laid.cons (@hspace ['\t'] rfl) (hkey "max_tokens")
    (.cons (@hspace [' '] rfl) (hmark .colon rfl)
      (.cons (@hspace ['\n'] rfl) (hlimit 18446744073709551615)
        (.cons (@hspace [' '] rfl) (hmark .comma rfl) hsecond)))
  exact .cons (@hspace [' '] rfl) (hmark .openObject rfl) hfirst

def repeated : String :=
  "\x7b\n  \"max_tokens\": 1,\n  \"max_tokens\": 2,\n  \"depth\": 3\n\x7d"

theorem isTextOf_repeated :
    (object [("max_tokens", 1), ("max_tokens", 2), ("depth", 3)]).IsTextOf repeated.toList :=
  (Json.obj [("max_tokens", .int 1), ("max_tokens", .int 2), ("depth", .int 3)]).isTextOf_pretty

theorem ofJson_overrides_spaced :
    (∃ limits, ofJson spaced = .ok limits ∧ limits.get .maxSymbols = 7 ∧
      limits.get .maxCodeLength = 1000 ∧ limits.get .maxTokens = 18446744073709551615) ∧
    (∃ limits, ofJson "[\n  7\n]" = .ok limits ∧
      ofJson "\x7b\n  \"max_symbols\": 7\n\x7d" = .ok limits) ∧
    ofJson repeated = .error (.repeatedField .maxTokens) ∧
    ∃ earlier key value later,
      [("max_tokens", 1), ("max_tokens", 2), ("depth", 3)] = earlier ++ (key, value) :: later ∧
        Admissible (earlier.map Prod.fst) ∧
        ((∀ field : Field, field.name ≠ key) ∧ ofJson repeated = .error (.unknownField key) ∨
          ∃ field : Field, field.name = key ∧ key ∈ earlier.map Prod.fst ∧
            ofJson repeated = .error (.repeatedField field)) := by
  obtain ⟨hobject, hlist, hrefused⟩ := ofJson_overrides
  refine ⟨?_, ?_, ofJson_object isTextOf_repeated (by decide), ?_⟩
  · obtain ⟨limits, hread, hget⟩ := hobject
      [(.maxTokens, 18446744073709551615), (.maxSymbols, 7)] spaced (by decide) (by decide)
      isTextOf_spaced
    exact ⟨limits, hread, hget .maxSymbols, hget .maxCodeLength, hget .maxTokens⟩
  · exact hlist [7] _ _ (by decide) (by decide) (Json.arr [.int 7]).isTextOf_pretty
      (Json.obj [("max_symbols", .int 7)]).isTextOf_pretty
  · apply hrefused _ _ (by decide) isTextOf_repeated
    intro hkeys
    exact absurd hkeys.1 (by decide)

end Limits
end PL0
