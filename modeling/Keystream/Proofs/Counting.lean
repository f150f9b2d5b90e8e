import Mathlib.Algebra.Order.Floor.Div
import Mathlib.Algebra.Order.Ring.Nat
import Mathlib.Data.Nat.ModEq
import Mathlib.GroupTheory.GroupAction.Ring

/-!
# Counting around and rounding up

Facts on the two ways in which counts turn up: as places that are counted around a table or a
buffer, and as the number of pieces that cover an amount when the last piece may be larger than what
is left.
-/

namespace Keystream

/-! ### Around a number of places -/

theorem eq_of_succ_mod_eq {size first second : Nat} (hfirst : first < size)
    (hsecond : second < size) (hsucc : (first + 1) % size = (second + 1) % size) : first = second :=
  Nat.ModEq.eq_of_lt_of_lt (Nat.ModEq.add_right_cancel' 1 hsucc) hfirst hsecond

theorem mod_ne_add_mod {size distance : Nat} (place : Nat) (hpos : 0 < distance)
    (hlt : distance < size) : place % size ≠ (place + distance) % size := by
  intro hsame
  have hzero : 0 ≡ distance [MOD size] := Nat.ModEq.add_left_cancel' place hsame
  exact Nat.ne_of_lt hpos (hzero.eq_of_lt_of_lt (Nat.zero_lt_of_lt hlt) hlt)

theorem ne_add_mod {size place distance : Nat} (hplace : place < size) (hpos : 0 < distance)
    (hlt : distance < size) : place ≠ (place + distance) % size := by
  have hne := mod_ne_add_mod place hpos hlt
  rwa [Nat.mod_eq_of_lt hplace] at hne

/-! ### Rounding up -/

theorem ceilDiv_eq_of_le {count size quotient : Nat} (hmost : size * quotient < count + size)
    (hall : count ≤ size * quotient) : count ⌈/⌉ size = quotient := by
  have hpos : 0 < size := by
    rcases Nat.eq_zero_or_pos size with rfl | hpos
    · omega
    · exact hpos
  apply Nat.le_antisymm ((ceilDiv_le_iff_le_mul hpos).2 hall)
  have hcover : count ≤ size * (count ⌈/⌉ size) := (ceilDiv_le_iff_le_mul hpos).1 (Nat.le_refl _)
  have hlt : size * quotient < size * (count ⌈/⌉ size + 1) := by
    rw [Nat.mul_succ]
    omega
  exact Nat.le_of_lt_succ (Nat.lt_of_mul_lt_mul_left hlt)

theorem mul_add_ceilDiv {size : Nat} (hpos : 0 < size) (quotient more : Nat) :
    (size * quotient + more) ⌈/⌉ size = quotient + more ⌈/⌉ size := by
  rw [Nat.ceilDiv_eq_add_pred_div, Nat.ceilDiv_eq_add_pred_div, Nat.add_assoc,
    Nat.add_sub_assoc (by omega), Nat.mul_add_div hpos]

end Keystream
