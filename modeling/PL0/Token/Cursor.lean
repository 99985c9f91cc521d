import PL0.Error
import PL0.Token.Basic

/-!
A stream of tokens with a position in it. The token at the position can be seen, and the position
can be moved one token on. At the end of the stream an end-of-input token is seen, and moving on
changes nothing.
-/

namespace PL0

structure Cursor where
  /-- The tokens before the position, the nearest first. -/
  passed : List Token
  /-- The tokens from the position on. -/
  rest : List Token
  deriving DecidableEq, Repr

namespace Cursor

/-- A cursor at the first of the given tokens, of which there must be some but no more than
`limit`. -/
def ofTokens (tokens : List Token) (limit : Nat) : Except CompileError Cursor :=
  if tokens.isEmpty then .error .emptyStream
  else if limit < tokens.length then .error (.tooManyTokens limit)
  else .ok ⟨[], tokens⟩

/-- The whole stream. -/
def tokens (c : Cursor) : List Token :=
  c.passed.reverse ++ c.rest

/-- The number of tokens before the position. -/
def position (c : Cursor) : Nat :=
  c.passed.length

def current (c : Cursor) : Token :=
  c.rest.headD Token.endOfInput

def kind (c : Cursor) : Kind :=
  c.current.kind

def advance (c : Cursor) : Cursor :=
  match c.rest with
  | [] => c
  | token :: rest => ⟨token :: c.passed, rest⟩

/-- Whether a token of the given kind stands anywhere in the stream. -/
def contains (c : Cursor) (kind : Kind) : Bool :=
  c.tokens.any (·.kind == kind)

@[simp]
theorem tokens_advance (c : Cursor) : c.advance.tokens = c.tokens := by
  rcases c with ⟨passed, _ | ⟨token, rest⟩⟩ <;> simp [advance, tokens]

theorem position_add_length_rest (c : Cursor) :
    c.position + c.rest.length = c.tokens.length := by
  simp [position, tokens]

theorem length_rest_advance_le (c : Cursor) : c.advance.rest.length ≤ c.rest.length := by
  rcases c with ⟨passed, _ | ⟨token, rest⟩⟩ <;> simp [advance]

theorem length_rest_advance {c : Cursor} (h : c.kind ≠ .endOfInput) :
    c.advance.rest.length + 1 = c.rest.length := by
  rcases c with ⟨passed, _ | ⟨token, rest⟩⟩
  · exact absurd rfl h
  · simp [advance]

end Cursor
end PL0
