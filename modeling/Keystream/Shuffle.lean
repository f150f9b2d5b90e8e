import Keystream.Arrangement

/-!
# Shuffling

The items are shuffled from the back: the last item that is not yet placed is exchanged with one
drawn among all that are not yet placed, itself included.
-/

namespace Keystream

variable {α σ : Type}

/-- Places the first `count` items, last one first, at positions that `pick` draws. -/
def shuffleWith (pick : Nat → Draw σ Nat) : (count : Nat) → Array α → σ → Arrangement α σ
  | 0, items, engine => .finished items engine
  | 1, items, engine => .finished items engine
  | count + 2, items, engine =>
      match pick (count + 2) engine with
      | (.error reason, engine) => .stopped items engine reason
      | (.ok chosen, engine) =>
          if h : chosen < items.size ∧ count + 1 < items.size then
            shuffleWith pick (count + 1) (items.swap chosen (count + 1) h.1 h.2) engine
          else
            .stopped items engine .overrun

def shuffle {w : Nat} [Engine σ w] (budget : Nat) (items : Array α) (engine : σ) :
    Arrangement α σ :=
  if items.size < 2 then
    .finished items engine
  else
    match Draw.lengthWord w items.size with
    | .error cause => .stopped items engine (.refused cause)
    | .ok _ => shuffleWith (Draw.index budget) items.size items engine

end Keystream
