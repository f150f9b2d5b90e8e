import Keystream.Engine
import Keystream.Error
import Keystream.Word

/-!
# Draws without bias

Reducing a word modulo a bound favours small values unless the bound divides the number of words an
engine can give. A draw therefore throws away the lowest words until the number of those that are
left is a multiple of the bound, and takes the first word that is not thrown away.

An engine may in principle give rejected words for ever, so a draw has a budget, the number of
words it may look at. Running out of it is kept apart from a refusal, which is known before the
first word is taken.
-/

namespace Keystream

/-- Why a draw, or an algorithm that draws, gives no result. -/
inductive Stop where
  | refused (cause : Error)
  /-- The budget went into rejected words. -/
  | starved
  /-- A position outside the items was reached. -/
  | overrun
  deriving Repr, DecidableEq

/-- A value or the reason for none, and the engine after the draw in either case. -/
abbrev Draw (σ : Type) := ExceptT Stop (StateM σ)

namespace Draw

variable {σ : Type} {w : Nat}

/-- A budget that no engine in use exhausts. -/
def ample : Nat := 1 <<< 62

def refuse {α : Type} (cause : Error) : Draw σ α :=
  throw (.refused cause)

/-- The number of words modulo the bound. That number wraps to zero in an engine that gives all
words, and subtracting the bound once makes up for it. -/
def threshold (lo hi bound : BitVec w) : BitVec w :=
  (hi - lo + 1 - bound) % bound

/-- The value that a word stands for, if it is not thrown away. -/
def reduce? (lo threshold bound word : BitVec w) : Option (BitVec w) :=
  if threshold ≤ word - lo then some ((word - lo) % bound) else none

def first [Engine σ w] {α : Type} (value? : BitVec w → Option α) :
    (budget : Nat) → σ → Except Stop α × σ
  | 0, engine => (.error .starved, engine)
  | budget + 1, engine =>
      let (word, engine) := Engine.next engine
      match value? word with
      | some value => (.ok value, engine)
      | none => first value? budget engine

def below [Engine σ w] (budget : Nat) (bound : BitVec w) : Draw σ (BitVec w) :=
  if bound = 0 then
    refuse .nothingToDraw
  else
    first (reduce? (Engine.lo σ) (threshold (Engine.lo σ) (Engine.hi σ) bound) bound) budget

/-- The word that counts `len` items, unless they are too many for one. -/
def lengthWord (w len : Nat) : Except Error (BitVec w) :=
  match Word.ofSize? w len with
  | some bound => .ok bound
  | none => .error (.tooManyValues len w)

def index [Engine σ w] (budget len : Nat) : Draw σ Nat :=
  match lengthWord w len with
  | .error cause => refuse cause
  | .ok bound => do
      let value ← below budget bound
      return value.toNat

/-- A value from `start` up to but not including `stop`. -/
def range [Engine σ w] (budget : Nat) (start stop : BitVec w) : Draw σ (BitVec w) :=
  if stop ≤ start then
    refuse .nothingToDraw
  else do
    let offset ← below budget (stop - start)
    return start + offset

end Draw

end Keystream
