import Chronicle.Fault

/-!
# Calling off

Long work asks now and then whether it was called off.  What it is told is a
signal: the answer to its first question, to its second, and so on.  Whoever
wants to call work off holds a token; copies of a token share one flag.
-/

namespace Chronicle

/-- For each question, counted from zero, whether the work was called off. -/
abbrev Signal := Nat → Bool

namespace Signal

/-- Never called off. -/
def never : Signal := fun _ => false

/-- Called off, or not, from the start. -/
def always (calledOff : Bool) : Signal := fun _ => calledOff

/-- Called off just before the question of number `first`. -/
def since (first : Nat) : Signal := fun question => first ≤ question

/-- Fails if the work was called off by the time of a question. -/
def check
    (signal : Signal)
    (question : Nat) :
    Except Fault Unit :=
  if signal question then .error .cancelled else .ok ()

end Signal

/-- Tokens, by number, and the flags that they share. -/
structure Tokens where
  /-- The number of the flag of each token. -/
  flagOf : Array Nat
  /-- Whether each flag was raised. -/
  flags : Array Bool
deriving DecidableEq, Inhabited

namespace Tokens

/-- No tokens. -/
def empty : Tokens :=
  ⟨#[], #[]⟩

/-- One more token with a flag of its own. -/
def issue (tokens : Tokens) : Tokens :=
  ⟨tokens.flagOf.push tokens.flags.size, tokens.flags.push false⟩

/-- One more token with the flag of `token`. -/
def copy
    (tokens : Tokens)
    (token : Nat) :
    Tokens :=
  { tokens with flagOf := tokens.flagOf.push (tokens.flagOf.getD token tokens.flags.size) }

/-- Raises the flag of `token`. -/
def cancel
    (tokens : Tokens)
    (token : Nat) :
    Tokens :=
  { tokens with
    flags := tokens.flags.setIfInBounds (tokens.flagOf.getD token tokens.flags.size) true }

/-- Whether the flag of `token` was raised. -/
def isCancelled
    (tokens : Tokens)
    (token : Nat) :
    Bool :=
  (tokens.flagOf[token]?.bind fun flag => tokens.flags[flag]?).getD false

/-- Fails once the flag of `token` was raised. -/
def check
    (tokens : Tokens)
    (token : Nat) :
    Except Fault Unit :=
  if tokens.isCancelled token then .error .cancelled else .ok ()

end Tokens

end Chronicle
