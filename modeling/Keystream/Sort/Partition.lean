/-!
# Partitioning around a pivot

The chosen item is the pivot and goes to the last position. One scan goes up over items below the
pivot, another comes down over items above it, and the two items at which they stop are exchanged,
until the scans meet. Then the pivot goes to where the upward scan stands.

The upward scan has no end of its own: it relies on the pivot not being below itself. Every
position is therefore checked before it is read, and a partition that would leave the items has no
result.
-/

namespace Keystream

namespace Partition

variable {α : Type} {n : Nat}

/-- The first position from `i` on whose item is not below the pivot. -/
def scanUp? (below : α → Bool) (items : Vector α n) (i : Nat) : Option Nat :=
  if h : i < n then
    if below items[i] then scanUp? below items (i + 1) else some i
  else
    none
termination_by n - i

/-- The last position down from `j` whose item is not above the pivot, or `i` if that comes
first. -/
def scanDown? (above : α → Bool) (items : Vector α n) (i : Nat) : Nat → Option Nat
  | 0 => some 0
  | j + 1 =>
      if i < j + 1 then
        if h : j + 1 < n then
          if above items[j + 1] then scanDown? above items i j else some (j + 1)
        else
          none
      else
        some (j + 1)

theorem le_of_scanUp?_eq_some {below : α → Bool} {items : Vector α n} {i k : Nat}
    (hscan : scanUp? below items i = some k) : i ≤ k := by
  fun_induction scanUp? below items i with
  | case1 i hi hbelow ih => exact Nat.le_of_succ_le (ih hscan)
  | case2 i hi hbelow => exact Nat.le_of_eq (Option.some.inj hscan)
  | case3 i hi => cases hscan

theorem le_of_scanDown?_eq_some {above : α → Bool} {items : Vector α n} {i j k : Nat}
    (hscan : scanDown? above items i j = some k) : k ≤ j := by
  fun_induction scanDown? above items i j with
  | case1 => exact Nat.le_of_eq (Option.some.inj hscan).symm
  | case2 j hi hj habove ih => exact Nat.le_succ_of_le (ih hscan)
  | case3 j hi hj habove => exact Nat.le_of_eq (Option.some.inj hscan).symm
  | case4 j hi hj => cases hscan
  | case5 j hi => exact Nat.le_of_eq (Option.some.inj hscan).symm

/-- Exchanges what the scans stop at until they meet, which is where the upward one then stands. -/
def sweep? (below above : α → Bool) (items : Vector α n) (i j : Nat) :
    Option (Vector α n × Nat) :=
  match _hup : scanUp? below items i with
  | none => none
  | some i' =>
      match hdown : scanDown? above items i' j with
      | none => none
      | some j' =>
          if hmet : j' ≤ i' then
            some (items, i')
          else if h : i' < n ∧ j' < n then
            sweep? below above (items.swap i' j' h.1 h.2) (i' + 1) (j' - 1)
          else
            none
termination_by j - i
decreasing_by
  have hi := le_of_scanUp?_eq_some _hup
  have hj := le_of_scanDown?_eq_some hdown
  omega

end Partition

/-- The pivot stands at the position in the result. Neither comparison is taken from the other. -/
def partition? {α : Type} {n : Nat} (lt gt : α → α → Bool) (items : Vector α n) (chosen : Nat) :
    Option (Vector α n × Fin n) :=
  if h : chosen < n then
    let items := items.swap chosen (n - 1)
    let pivot := items[n - 1]
    match Partition.sweep? (lt · pivot) (gt · pivot) items 0 (n - 2) with
    | none => none
    | some (items, i) =>
        if hi : i < n then some (items.swap i (n - 1), ⟨i, hi⟩) else none
  else
    none

end Keystream
