import Keystream.Proofs.Arc4.Back
import Keystream.Proofs.Arc4.Run

/-!
# Discarded words

A word costs as many steps as chunks cover it, so discarding words is a matter of counting steps.
The number of steps is held in 64 bits and stops at the largest number that these can hold. Up to
there an engine that discards words is where it would be if it had given them. Beyond, it stays
behind by the steps that were not counted, and it is only where it would be if these happen to lead
the table back to itself.
-/

namespace Keystream.Arc4

namespace State

variable {e : Nat} {s : State e}

theorem Valid.i_advance (hs : s.Valid) (count : Nat) :
    (s.advance count).i = (s.i + count) % s.size := by
  induction count generalizing s with
  | zero => exact (Nat.mod_eq_of_lt hs.i_lt).symm
  | succ count ih =>
      rw [State.advance, ih (hs.stir 0), size_stir, i_stir, Nat.mod_add_mod, Nat.add_assoc,
        Nat.add_comm 1]

/-- Steps lead to the same place exactly when the ones that only one side takes lead nowhere. -/
theorem Valid.advance_eq_advance_iff (hs : s.Valid) {few many : Nat} (hle : few ≤ many) :
    s.advance few = s.advance many ↔ s.advance (many - few) = s := by
  have hmany : s.advance many = (s.advance (many - few)).advance few := by
    rw [← advance_add, Nat.sub_add_cancel hle]
  rw [hmany]
  constructor
  · intro hsame
    exact (hs.eq_of_advance_eq (hs.advance _) hsame).symm
  · intro hback
    rw [hback]

theorem Valid.size_dvd_of_advance_eq (hs : s.Valid) {count : Nat} (hback : s.advance count = s) :
    s.size ∣ count := by
  have hi : (s.i + count) % s.size = s.i % s.size := by
    rw [← hs.i_advance, hback, Nat.mod_eq_of_lt hs.i_lt]
  have hzero := Nat.sub_mod_eq_zero_of_mod_eq hi
  rw [Nat.add_sub_cancel_left] at hzero
  exact Nat.dvd_of_mod_eq_zero hzero

end State

variable {shape : Shape} {s : Arc4 shape} {count : UInt64}

theorem advanceBy_next (count : Nat) (s : Arc4 shape) :
    advanceBy Engine.next count s =
      ⟨s.advance (count * Word.chunkCount shape.word shape.bits)⟩ := by
  induction count generalizing s with
  | zero => rw [Nat.zero_mul, State.advance, advanceBy]
  | succ count ih =>
      have hnext : (Engine.next s).2 = ⟨s.advance (Word.chunkCount shape.word shape.bits)⟩ :=
        Move.next_apply s
      rw [advanceBy, ih, hnext, ← State.advance_add, Nat.succ_mul, Nat.add_comm]

theorem discard_eq (count : UInt64) (s : Arc4 shape) :
    Engine.discard count s = ⟨s.advance (stepsFor shape count)⟩ := rfl

theorem stepsFor_of_lt
    (hsteps : count.toNat * Word.chunkCount shape.word shape.bits < UInt64.size) :
    stepsFor shape count = count.toNat * Word.chunkCount shape.word shape.bits :=
  Nat.min_eq_left (Nat.le_sub_one_of_lt hsteps)

theorem stepsFor_of_ge
    (hsteps : UInt64.size ≤ count.toNat * Word.chunkCount shape.word shape.bits) :
    stepsFor shape count = UInt64.size - 1 :=
  Nat.min_eq_right (Nat.le_trans (Nat.sub_le _ _) hsteps)

/-- **Discarding words is giving them, as far as the steps can be counted.** Beyond 64 bits, the
engine is where the words would have left it exactly if the missing steps lead the table back to
itself. -/
theorem discard_eq_words (hs : s.Valid) (count : UInt64) :
    let steps := count.toNat * Word.chunkCount shape.word shape.bits
    let missing := steps - (UInt64.size - 1)
    (steps < UInt64.size → Engine.discard count s = advanceBy Engine.next count.toNat s) ∧
      (UInt64.size ≤ steps →
        Engine.discard count s = ⟨s.advance (UInt64.size - 1)⟩ ∧
          (Engine.discard count s = advanceBy Engine.next count.toNat s ↔
            s.advance missing = s.toState) ∧
          (Engine.discard count s = advanceBy Engine.next count.toNat s → s.size ∣ missing)) := by
  intro steps missing
  refine ⟨fun hlt => ?_, fun hge => ?_⟩
  · rw [discard_eq, stepsFor_of_lt hlt, advanceBy_next]
  · have hdiscard : Engine.discard count s = ⟨s.advance (UInt64.size - 1)⟩ := by
      rw [discard_eq, stepsFor_of_ge hge]
    have hiff : Engine.discard count s = advanceBy Engine.next count.toNat s ↔
        s.advance missing = s.toState := by
      rw [hdiscard, advanceBy_next, mk.injEq]
      exact hs.advance_eq_advance_iff (Nat.le_trans (Nat.sub_le _ _) hge)
    exact ⟨hdiscard, hiff, fun hsame => hs.size_dvd_of_advance_eq (hiff.1 hsame)⟩

/-- A full table discards a million words, but `2 ^ 62` words leave it one step behind. -/
theorem discard_eq_words_initial :
    let s : Arc4 .bytes32 := initial
    Engine.discard 1000000 s = advanceBy Engine.next 1000000 s ∧
      Engine.discard 4611686018427387904 s ≠ advanceBy Engine.next 4611686018427387904 s := by
  intro s
  have hengine : (Origin.seeded defaultSeed : Origin .bytes32).engine = .ok s := rfl
  have hsize : s.size = 256 := (Origin.valid_engine hengine).1
  have hs : s.Valid := (Origin.valid_engine hengine).2
  refine ⟨(discard_eq_words hs 1000000).1 (by decide), fun hsame => ?_⟩
  have hdvd := ((discard_eq_words hs 4611686018427387904).2 (by decide)).2.2 hsame
  rw [hsize] at hdvd
  exact absurd hdvd (by decide)

/-- These words cost eight steps each, which makes `2 ^ 64`, and their last step is not taken. -/
theorem discard_ne_words :
    let s : Arc4 ⟨8, 8, 1, by decide, by decide, by decide⟩ := ⟨⟨0, 0, #[0, 1]⟩⟩
    let count : UInt64 := 2305843009213693952
    s.Valid ∧ Engine.discard count s ≠ advanceBy Engine.next count.toNat s := by
  intro s count
  have hs : s.Valid := ⟨by decide, by decide, by decide⟩
  refine ⟨hs, fun hsame => ?_⟩
  rw [discard_eq, advanceBy_next, mk.injEq] at hsame
  have hi := congrArg State.i hsame
  rw [hs.i_advance, hs.i_advance] at hi
  exact absurd hi (by decide)

end Keystream.Arc4
