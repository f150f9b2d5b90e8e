import Mathlib.Data.Nat.ModEq
import Mathlib.Data.Nat.Prime.Basic

/-!
# Operations that lose no bits

A scrambler of words may fold the high bits onto the low ones and multiply by an odd constant, any
number of times, and the word it started from can still be told: no two words give the same result.
Folding settles the bits one by one from the highest down, as each of them is only mixed with one
above it. An odd factor has no divisor in common with the number of words. A rotation is taken back
by one that completes the turn.
-/

namespace Keystream.Word

variable {w : Nat}

theorem injective_xor_ushiftRight {shift : Nat} (hpos : 0 < shift) :
    Function.Injective fun x : BitVec w => x ^^^ x >>> shift := by
  intro x y hsame
  -- the induction goes down from the end of the word, and `depth` bits have been reached
  have hbits : ∀ depth bit, w ≤ bit + depth → x.getLsbD bit = y.getLsbD bit := by
    intro depth
    induction depth with
    | zero =>
        intro bit hend
        rw [BitVec.getLsbD_of_ge x bit hend, BitVec.getLsbD_of_ge y bit hend]
    | succ depth ih =>
        intro bit hend
        have habove : x.getLsbD (shift + bit) = y.getLsbD (shift + bit) := ih _ (by omega)
        have hfolded := congrArg (fun z : BitVec w => z.getLsbD bit) hsame
        simp only [BitVec.getLsbD_xor, BitVec.getLsbD_ushiftRight, habove] at hfolded
        exact Bool.xor_left_inj.1 hfolded
  exact BitVec.eq_of_getLsbD_eq fun bit _ => hbits w bit (Nat.le_add_left w bit)

theorem injective_mul_odd {factor : BitVec w} (hodd : Odd factor.toNat) :
    Function.Injective fun x : BitVec w => x * factor := by
  intro x y hsame
  have hproduct : x.toNat * factor.toNat ≡ y.toNat * factor.toNat [MOD 2 ^ w] := by
    rw [Nat.ModEq, ← BitVec.toNat_mul, ← BitVec.toNat_mul]
    exact congrArg BitVec.toNat hsame
  have hcoprime : (2 ^ w).Coprime factor.toNat := (Nat.coprime_two_left.2 hodd).pow_left w
  have hmod : x.toNat ≡ y.toNat [MOD 2 ^ w] := hproduct.cancel_right_of_coprime hcoprime
  exact BitVec.eq_of_toNat_eq (hmod.eq_of_lt_of_lt x.isLt y.isLt)

theorem rotateLeft_rotateLeft (x : BitVec w) {count more : Nat}
    (haround : (count + more) % w = 0) : (x.rotateLeft count).rotateLeft more = x := by
  apply BitVec.eq_of_getMsbD_eq
  intro bit hbit
  have hback : (count + (more + bit) % w) % w = bit := by
    rw [Nat.add_mod_mod, ← Nat.add_assoc, Nat.add_mod, haround, Nat.zero_add, Nat.mod_mod,
      Nat.mod_eq_of_lt hbit]
  have hwrapped : (more + bit) % w < w := Nat.mod_lt _ (Nat.zero_lt_of_lt hbit)
  simp only [BitVec.getMsbD_rotateLeft, hbit, hwrapped, hback, decide_true, Bool.true_and]

/-- What an operation does to the bits of a number tells whether it loses any. -/
theorem injective_of_bits {α : Type} {bits : α → BitVec w} {op : α → α}
    {opBits : BitVec w → BitVec w} (hbits : Function.Injective bits)
    (hcommute : ∀ x, bits (op x) = opBits (bits x)) (hop : Function.Injective opBits) :
    Function.Injective op := by
  intro x y hsame
  apply hbits
  apply hop
  rw [← hcommute, ← hcommute, hsame]

/-! ### Numbers of 64 bits -/

theorem injective_xor_shiftRight {shift : UInt64} (hpos : 0 < shift.toNat)
    (hlt : shift.toNat < 64) : Function.Injective fun x : UInt64 => x ^^^ x >>> shift := by
  refine injective_of_bits @UInt64.eq_of_toBitVec_eq ?_ (injective_xor_ushiftRight hpos)
  intro x
  have hshift : (shift.toBitVec % 64).toNat = shift.toNat := Nat.mod_eq_of_lt hlt
  rw [UInt64.toBitVec_xor, UInt64.toBitVec_shiftRight, BitVec.ushiftRight_eq', hshift]

theorem injective_mul_odd64 {factor : UInt64} (hodd : Odd factor.toNat) :
    Function.Injective fun x : UInt64 => x * factor :=
  injective_of_bits @UInt64.eq_of_toBitVec_eq (fun _ => UInt64.toBitVec_mul)
    (injective_mul_odd hodd)

/-! ### Numbers of 32 bits -/

theorem injective_xor_shiftRight32 {shift : UInt32} (hpos : 0 < shift.toNat)
    (hlt : shift.toNat < 32) : Function.Injective fun x : UInt32 => x ^^^ x >>> shift := by
  refine injective_of_bits @UInt32.eq_of_toBitVec_eq ?_ (injective_xor_ushiftRight hpos)
  intro x
  have hshift : (shift.toBitVec % 32).toNat = shift.toNat := Nat.mod_eq_of_lt hlt
  rw [UInt32.toBitVec_xor, UInt32.toBitVec_shiftRight, BitVec.ushiftRight_eq', hshift]

theorem injective_mul_odd32 {factor : UInt32} (hodd : Odd factor.toNat) :
    Function.Injective fun x : UInt32 => x * factor :=
  injective_of_bits @UInt32.eq_of_toBitVec_eq (fun _ => UInt32.toBitVec_mul)
    (injective_mul_odd hodd)

end Keystream.Word
