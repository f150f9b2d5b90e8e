import Keystream.Proofs.Draw.First
import Keystream.Proofs.Word
import Keystream.SplitMix
import Mathlib.Data.FinEnum
import Mathlib.Data.UInt
import Mathlib.Order.Bounds.Basic

/-!
# Every number once per period

The counter moves by an odd step, so it takes every value before it comes back to its first one, and
the finalizer loses no bits, so different values give different outputs. Among `2 ^ 64` outputs in a
row every number therefore stands exactly once, wherever they start, and then the outputs repeat.
-/

namespace Keystream.SplitMix

/-- Output number `n`, where the next one has number zero. -/
def output (n : Nat) (s : SplitMix) : UInt64 :=
  (advanceBy next64 n s).next64.1

theorem advanceBy_next64 (count : Nat) (s : SplitMix) :
    advanceBy next64 count s = s.jump (UInt64.ofNat count) := by
  induction count generalizing s with
  | zero =>
      have hstay : s.state + gamma * UInt64.ofNat 0 = s.state :=
        (congrArg (s.state + ·) UInt64.mul_zero).trans s.state.add_zero
      rw [advanceBy, jump, hstay]
  | succ count ih =>
      have hmove : s.state + gamma + gamma * UInt64.ofNat count =
          s.state + gamma * UInt64.ofNat (count + 1) := by
        rw [UInt64.ofNat_add, UInt64.mul_add, UInt64.add_assoc, UInt64.add_comm gamma,
          UInt64.ofNat_one, UInt64.mul_one]
      rw [advanceBy, ih]
      exact congrArg mk hmove

theorem advanceBy_next (count : Nat) (s : SplitMix) :
    advanceBy Engine.next count s = advanceBy next64 count s := by
  induction count generalizing s with
  | zero => rw [advanceBy, advanceBy]
  | succ count ih =>
      have hnext : (Engine.next s).2 = s.next64.2 := rfl
      rw [advanceBy, advanceBy, hnext, ih]

theorem wordAt_eq (n : Nat) (s : SplitMix) : Engine.wordAt n s = (s.output n).toBitVec := by
  rw [Engine.wordAt, Engine.after, advanceBy_next]
  rfl

theorem output_eq (n : Nat) (s : SplitMix) :
    s.output n = finalize (s.state + gamma * UInt64.ofNat n + gamma) := by
  rw [output, advanceBy_next64]
  rfl

theorem ofNat_eq_ofNat_iff {n m : Nat} :
    UInt64.ofNat n = UInt64.ofNat m ↔ n ≡ m [MOD 2 ^ 64] := by
  rw [UInt64.ofNat_eq_iff_mod_eq_toNat, UInt64.toNat_ofNat', Nat.ModEq]

/-! ### Nothing is lost -/

theorem injective_finalize : Function.Injective finalize := by
  have hfold30 := @Word.injective_xor_shiftRight 30 (by decide) (by decide)
  have hfold27 := @Word.injective_xor_shiftRight 27 (by decide) (by decide)
  have hfold31 := @Word.injective_xor_shiftRight 31 (by decide) (by decide)
  have hfirst := @Word.injective_mul_odd64 0xBF58476D1CE4E5B9 (by decide)
  have hsecond := @Word.injective_mul_odd64 0x94D049BB133111EB (by decide)
  exact hfold31.comp (hsecond.comp (hfold27.comp (hfirst.comp hfold30)))

theorem injective_mul_gamma : Function.Injective fun count : UInt64 => gamma * count := by
  intro x y hsame
  simp only [UInt64.mul_comm gamma] at hsame
  exact Word.injective_mul_odd64 (by decide : Odd gamma.toNat) hsame

theorem bijective_output_jump (s : SplitMix) :
    Function.Bijective fun count : UInt64 => finalize (s.state + gamma * count + gamma) := by
  apply Finite.injective_iff_bijective.1
  intro x y hsame
  have hstate := (UInt64.add_left_inj gamma).1 (injective_finalize hsame)
  exact injective_mul_gamma ((UInt64.add_right_inj s.state).1 hstate)

theorem bijective_finalize : Function.Bijective finalize :=
  Finite.injective_iff_bijective.1 injective_finalize

/-! ### The period -/

theorem output_eq_iff {n m : Nat} (s : SplitMix) :
    s.output n = s.output m ↔ n ≡ m [MOD 2 ^ 64] := by
  rw [output_eq, output_eq, ← ofNat_eq_ofNat_iff]
  exact (bijective_output_jump s).injective.eq_iff

theorem advanceBy_eq_iff {n m : Nat} (s : SplitMix) :
    advanceBy next64 n s = advanceBy next64 m s ↔ n ≡ m [MOD 2 ^ 64] := by
  rw [advanceBy_next64, advanceBy_next64, jump, jump, mk.injEq, UInt64.add_right_inj,
    injective_mul_gamma.eq_iff, ofNat_eq_ofNat_iff]

theorem advanceBy_eq_self_iff {count : Nat} (s : SplitMix) :
    advanceBy next64 count s = s ↔ 2 ^ 64 ∣ count := by
  have hnone : advanceBy next64 0 s = s := by rw [advanceBy]
  rw [← Nat.modEq_zero_iff_dvd, ← advanceBy_eq_iff s, hnone]

theorem existsUnique_output (s : SplitMix) (start : Nat) (value : UInt64) :
    ∃! k, k < 2 ^ 64 ∧ s.output (start + k) = value := by
  obtain ⟨count, hcount⟩ := (bijective_output_jump s).surjective value
  have hreached : UInt64.ofNat (start + (count - UInt64.ofNat start).toNat) = count := by
    rw [UInt64.ofNat_add, UInt64.ofNat_toNat, UInt64.add_comm, UInt64.sub_add_cancel]
  have hvalue : s.output (start + (count - UInt64.ofNat start).toNat) = value := by
    rw [output_eq, hreached]
    exact hcount
  refine ⟨(count - UInt64.ofNat start).toNat, ⟨UInt64.toNat_lt _, hvalue⟩, ?_⟩
  rintro k ⟨hk, hsame⟩
  have hmod : start + k ≡ start + (count - UInt64.ofNat start).toNat [MOD 2 ^ 64] := by
    rw [← output_eq_iff s, hsame, hvalue]
  exact (Nat.ModEq.add_left_cancel' start hmod).eq_of_lt_of_lt hk (UInt64.toNat_lt _)

/-- **Every number stands once in a period.** The counter comes back after `2 ^ 64` outputs and no
fewer, and each number is exactly one of any `2 ^ 64` outputs in a row. -/
theorem every_number_once (s : SplitMix) :
    (∀ n m, s.output n = s.output m ↔ n ≡ m [MOD 2 ^ 64]) ∧
      IsLeast {count | 0 < count ∧ advanceBy next64 count s = s} (2 ^ 64) ∧
      Function.Bijective finalize ∧
      (∀ start value, ∃! k, k < 2 ^ 64 ∧ s.output (start + k) = value) ∧
      ∀ n, Engine.wordAt n s = (s.output n).toBitVec := by
  refine ⟨fun n m => output_eq_iff s, ⟨⟨Nat.two_pow_pos 64, ?_⟩, ?_⟩, bijective_finalize,
    existsUnique_output s, fun n => wordAt_eq n s⟩
  · exact (advanceBy_eq_self_iff s).2 (Nat.dvd_refl _)
  · rintro count ⟨hpos, hback⟩
    exact Nat.le_of_dvd hpos ((advanceBy_eq_self_iff s).1 hback)

end Keystream.SplitMix
