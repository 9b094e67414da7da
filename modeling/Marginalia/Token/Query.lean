import Marginalia.Token.Basic

/-
  This file defines questions about a document that are answered
  by looking at the tokens of some of its lines.  A question
  asks for one line after the other, and which line comes next
  may depend on the tokens seen so far.

  So what is asked is kept apart from how lines are tokenized:
  the same question can be answered from a table of all tokens,
  or by tokenizing only the lines that it asks for.

  Key definitions include:
    * `TokenQuery`
    * `TokenQuery.tokensOf`
    * `TokenQuery.eval`
-/

namespace Marginalia

/- A question: its answer, or a line to look at first. -/
inductive TokenQuery (α : Type) where
| answer (value : α)
| ask (line : Nat) (next : List Token → TokenQuery α)

namespace TokenQuery

variable {α β : Type}

/- Ask a second question that depends on the answer to the first. -/
def bind : TokenQuery α → (α → TokenQuery β) → TokenQuery β
| .answer value, f => f value
| .ask line next, f => .ask line (fun tokens => (next tokens).bind f)

instance : Monad TokenQuery where
  pure := .answer
  bind := bind

/- The tokens of a line. -/
def tokensOf (line : Nat) : TokenQuery (List Token) :=
  .ask line .answer

/- The answer to a question, given the tokens of all lines. -/
def eval (tokens : Nat → List Token) : TokenQuery α → α
| .answer value => value
| .ask line next => eval tokens (next (tokens line))

/- Answering nothing but a value. -/
@[simp]
theorem eval_pure
    (tokens : Nat → List Token)
    (value : α) :
    eval tokens (pure value) = value :=
  rfl

/- Answering a line. -/
@[simp]
theorem eval_tokensOf
    (tokens : Nat → List Token)
    (line : Nat) :
    eval tokens (tokensOf line) = tokens line :=
  rfl

/- Answering two questions in a row. -/
@[simp]
theorem eval_bind
    (tokens : Nat → List Token)
    (q : TokenQuery α)
    (f : α → TokenQuery β) :
    eval tokens (q >>= f) = eval tokens (f (eval tokens q)) := by
  induction q with
  | answer value => rfl
  | ask line next ih => exact ih (tokens line)

end TokenQuery

end Marginalia
