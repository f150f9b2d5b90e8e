import Keystream.Arrangement
import Keystream.Sort.Partition

/-!
# Sorting

Quicksort with drawn pivots. A partition puts one item in its final position, and the items on the
two sides of it are sorted on their own: the shorter side in a nested call, and the longer side by
going on in the same loop. A nested call thus has less than half of the items, which keeps the
nesting shallow whatever the pivots are.
-/

namespace Keystream

variable {α σ : Type}

/-- What stands `before` and `behind` the items is in place already. The shorter side is sorted in a
nested call, a loop of its own, and the next turn goes on with the longer side. -/
def sortLoop (pick : Nat → Draw σ Nat) (lt gt : α → α → Bool) (before items behind : Array α)
    (engine : σ) : Arrangement α σ :=
  if items.size < 2 then
    .finished (before ++ items ++ behind) engine
  else
    match pick items.size engine with
    | (.error reason, engine) => .stopped (before ++ items ++ behind) engine reason
    | (.ok chosen, engine) =>
        match partition? lt gt items.toVector chosen with
        | none => .stopped (before ++ items ++ behind) engine .overrun
        | some (split, middle) =>
            let left := split.toArray.extract 0 middle
            let pivot := split[middle]
            let right := split.toArray.extract (middle + 1)
            if left.size < right.size then
              let nested := sortLoop pick lt gt #[] left #[] engine
              match nested.ended with
              | .error _ => nested.among before (#[pivot] ++ right ++ behind)
              | .ok () =>
                  sortLoop pick lt gt (before ++ nested.items.push pivot) right behind nested.engine
            else
              let nested := sortLoop pick lt gt #[] right #[] engine
              match nested.ended with
              | .error _ => nested.among (before ++ left.push pivot) behind
              | .ok () =>
                  sortLoop pick lt gt before left (#[pivot] ++ nested.items ++ behind) nested.engine
termination_by items.size
decreasing_by
  all_goals
    have hmiddle := middle.isLt
    simp only [Array.size_extract, Vector.size_toArray]
    omega

def sortWith (pick : Nat → Draw σ Nat) (lt gt : α → α → Bool) (items : Array α) (engine : σ) :
    Arrangement α σ :=
  sortLoop pick lt gt #[] items #[] engine

def sort {w : Nat} [Engine σ w] (budget : Nat) (lt : α → α → Bool) (items : Array α)
    (engine : σ) (gt : α → α → Bool := fun x y => lt y x) : Arrangement α σ :=
  if items.size < 2 then
    .finished items engine
  else
    match Draw.lengthWord w items.size with
    | .error cause => .stopped items engine (.refused cause)
    | .ok _ => sortWith (Draw.index budget) lt gt items engine

end Keystream
