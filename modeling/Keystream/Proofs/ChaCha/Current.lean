import Keystream.ChaCha
import Mathlib.Algebra.Group.Nat.Defs

/-!
# The kept block is current

The block that an engine keeps is the one its position lies in, unless the position is at the start
of a block. Three places compute a block under three different conditions, and rekeying computes
none; the statements here say that each of them leaves a current block behind, whatever the engine
held before, also where the position wraps. Under this invariant the next word is the word of the
stream at the position, which depends on key and position alone.
-/

namespace Keystream.ChaCha

variable {rounds : Nat} {s : ChaCha rounds}

/-! ### Positions and their blocks -/

theorem succ_div_of_mod_ne_zero {position : UInt64} (hinside : (position + 1) % 16 ≠ 0) :
    (position + 1) / 16 = position / 16 := by
  have hnat : (position.toNat + 1) % 2 ^ 64 % 16 ≠ 0 := by
    intro hzero
    apply hinside
    apply UInt64.toNat_inj.1
    simpa using hzero
  apply UInt64.toNat_inj.1
  have hlt := position.toNat_lt
  simp only [UInt64.toNat_div, UInt64.toNat_add, UInt64.reduceToNat]
  omega

theorem toNat_succ (position : UInt64) :
    (position + 1).toNat = (position.toNat + 1) % 2 ^ 64 := by
  rw [UInt64.toNat_add]
  rfl

/-! ### The invariant -/

/-- Inside a block, the kept block is the one that the position lies in. -/
def Current (s : ChaCha rounds) : Prop :=
  s.position % 16 ≠ 0 → s.block = blockAt rounds s.key (s.position / 16)

theorem current_refill (s : ChaCha rounds) : s.refill.Current :=
  fun _ => rfl

theorem current_rekey (key : Key) (s : ChaCha rounds) : (s.rekey key).Current := by
  intro hinside
  exact absurd rfl hinside

@[simp] theorem key_ofKey (key : Key) (position : UInt64) :
    (ofKey key position : ChaCha rounds).key = key := by
  unfold ofKey
  split <;> rfl

@[simp] theorem position_ofKey (key : Key) (position : UInt64) :
    (ofKey key position : ChaCha rounds).position = position := by
  unfold ofKey
  split <;> rfl

theorem current_ofKey (key : Key) (position : UInt64) :
    (ofKey key position : ChaCha rounds).Current := by
  unfold ofKey
  by_cases hstart : position % 16 = 0
  · intro hinside
    rw [if_pos hstart] at hinside
    exact absurd hstart hinside
  · rw [if_neg hstart]
    exact current_refill _

/-- The next word of a current engine is the word of the stream at its position. -/
theorem Current.nextWord_eq (hs : s.Current) :
    s.nextWord = (wordAt rounds s.key s.position,
      ⟨blockAt rounds s.key (s.position / 16), s.key, s.position + 1⟩) := by
  have hready : (if s.position % 16 = 0 then s.refill else s) =
      ⟨blockAt rounds s.key (s.position / 16), s.key, s.position⟩ := by
    by_cases hstart : s.position % 16 = 0
    · rw [if_pos hstart, refill]
    · rw [if_neg hstart, ← hs hstart]
  simp only [nextWord, hready, wordAt]

theorem Current.nextWord (hs : s.Current) : s.nextWord.2.Current := by
  rw [hs.nextWord_eq]
  intro hinside
  have hsame : (s.position + 1) / 16 = s.position / 16 := succ_div_of_mod_ne_zero hinside
  change blockAt rounds s.key (s.position / 16) = blockAt rounds s.key ((s.position + 1) / 16)
  rw [hsame]

theorem jump_eq (count : UInt64) (s : ChaCha rounds) :
    s.jump count =
      if (s.position + count) % 16 ≠ 0 ∧
          (s.position % 16 = 0 ∨ (s.position + count) / 16 ≠ s.position / 16) then
        refill { s with position := s.position + count }
      else
        { s with position := s.position + count } := rfl

@[simp] theorem key_jump (count : UInt64) (s : ChaCha rounds) : (s.jump count).key = s.key := by
  rw [jump_eq]
  split <;> rfl

@[simp] theorem position_jump (count : UInt64) (s : ChaCha rounds) :
    (s.jump count).position = s.position + count := by
  rw [jump_eq]
  split <;> rfl

/-- A jump without a new block lands at the start of one or stays inside the one that is kept. -/
theorem Current.jump (hs : s.Current) (count : UInt64) : (s.jump count).Current := by
  rw [jump_eq]
  split
  · exact current_refill _
  · rename_i hkept
    intro hinside
    have hstay := not_and.1 hkept hinside
    have hsame : (s.position + count) / 16 = s.position / 16 :=
      Decidable.not_not.1 fun hne => hstay (.inr hne)
    have hinsideBefore : s.position % 16 ≠ 0 := fun hstart => hstay (.inl hstart)
    change s.block = blockAt rounds s.key ((s.position + count) / 16)
    rw [hsame]
    exact hs hinsideBefore

/-! ### What a block is made of -/

theorem toList_inputBlock (key : Key) (number : UInt64) :
    (inputBlock key number).toList =
      [0x61707865, 0x3320646e, 0x79622d32, 0x6b206574] ++ key.toList ++
        [UInt32.ofNat (number.toNat % 2 ^ 32), UInt32.ofNat (number.toNat / 2 ^ 32), 0xdeadbeef,
          0xdeadbeef] := by
  have hlow : number.toUInt32 = UInt32.ofNat (number.toNat % 2 ^ 32) := by
    apply UInt32.toNat_inj.1
    simp
  have hhigh : (number >>> 32).toUInt32 = UInt32.ofNat (number.toNat / 2 ^ 32) := by
    apply UInt32.toNat_inj.1
    simp [Nat.shiftRight_eq_div_pow]
  simp only [inputBlock, constants, halves, filler, hlow, hhigh, Vector.toList,
    Vector.toArray_append, Array.toList_append, List.append_assoc, List.cons_append,
    List.nil_append]

theorem toNat_wordAt (key : Key) (position : UInt64) :
    (wordAt rounds key position).toNat =
      (((doubleRounds (rounds / 2) (inputBlock key (position / 16))).get (placeIn position)).toNat +
        ((inputBlock key (position / 16)).get (placeIn position)).toNat) % 2 ^ 32 := by
  simp only [wordAt, blockAt, Fin.getElem_fin, Vector.getElem_zipWith]
  exact UInt32.toNat_add _ _

end Keystream.ChaCha
