import Keystream.Proofs.Arc4.Valid
import Keystream.Proofs.Counting
import Keystream.Proofs.SplitMix.Jumps
import Mathlib.Algebra.BigOperators.Group.Finset.Basic

/-!
# Key material keeps the seed words

A full table cuts its key entries out of the seed words, and when whole entries make up a word and
whole words make up the key, no bit of a seed word is lost and none is used twice: entry `k` is one
slice of one word, and the words are what the entries give as digits. Two seeds of an engine with
byte entries, or with entries of 16 bits, therefore never give the same key, as their first seed
words differ already.
-/

namespace Keystream

namespace Word

theorem slicesPerWord_full {width : Nat} (hpos : 0 < width) (hle : width ≤ 32) :
    slicesPerWord width true = 32 / width := by
  have hseed : ¬ seedBits < width := Nat.not_lt.2 hle
  have hcut : (!true || width == 0 || decide (seedBits < width)) = false := by
    rw [beq_false_of_ne (Nat.ne_of_gt hpos), decide_eq_false hseed]
    rfl
  rw [slicesPerWord, hcut]
  rfl

theorem toNat_slice {index width : Nat} (hpos : 0 < width) (hinside : width * index < 32)
    (word : UInt32) : (slice word index width).toNat = word.toNat / 2 ^ (width * index) := by
  have hindex : index < UInt32.size :=
    Nat.lt_of_le_of_lt (Nat.le_mul_of_pos_left index hpos)
      (Nat.lt_trans hinside (by decide))
  have hshift : (UInt32.ofNat (width * index)).toNat % 32 = width * index := by
    rw [UInt32.toNat_ofNat_of_lt' (Nat.lt_trans hinside (by decide)), Nat.mod_eq_of_lt hinside]
  have hseed : width * index < seedBits := hinside
  rw [slice, Nat.mod_eq_of_lt hindex, Nat.mul_comm, if_pos hseed, UInt32.toNat_shiftRight,
    hshift, Nat.shiftRight_eq_div_pow]

theorem sum_slices (number width count : Nat) :
    ∑ r ∈ Finset.range count, number / 2 ^ (width * r) % 2 ^ width * 2 ^ (width * r) =
      number % 2 ^ (width * count) := by
  induction count with
  | zero => simp [Nat.mod_one]
  | succ count ih =>
      rw [Finset.sum_range_succ, ih, Nat.mul_succ, Nat.pow_add, Nat.mod_mul,
        Nat.mul_comm (2 ^ (width * count))]

end Word

namespace Arc4.Shape

variable {shape : Shape}

def seedWordOf (shape : Shape) (key : Array (BitVec shape.entry)) (q : Nat) : UInt32 :=
  UInt32.ofNat (∑ r ∈ Finset.range (32 / shape.bits),
    (key.getD (32 / shape.bits * q + r) 0).toNat * 2 ^ (shape.bits * r))

def seedWordsOf (shape : Shape) (key : Array (BitVec shape.entry)) :
    Vector UInt32 (shape.seedWordCount shape.fullSize) :=
  Vector.ofFn fun q => shape.seedWordOf key q

/-- The key entries of a full table are slices of the seed words, and together all of them. -/
structure CutsCleanly (shape : Shape) : Prop where
  perWord_eq : shape.keyEntriesPerWord shape.fullSize = 32 / shape.bits
  inside : ∀ k, shape.bits * (k % (32 / shape.bits)) + shape.bits ≤ 32
  apart : ∀ j k, j < k → j / (32 / shape.bits) = k / (32 / shape.bits) →
    shape.bits * (j % (32 / shape.bits)) + shape.bits ≤ shape.bits * (k % (32 / shape.bits))
  size_key : ∀ {τ : Type} [SeedSource τ] (source : τ),
    (shape.keyMaterial shape.fullSize source).1.size = shape.fullSize / 2
  entry : ∀ {τ : Type} [SeedSource τ] (source : τ), ∀ k < shape.fullSize / 2, ∃ word entry,
    (SeedSource.generate (shape.seedWordCount shape.fullSize) source).1.toList[
        k / (32 / shape.bits)]? = some word ∧
      (shape.keyMaterial shape.fullSize source).1[k]? = some entry ∧
      entry.toNat =
        (word.toBitVec.extractLsb' (shape.bits * (k % (32 / shape.bits))) shape.bits).toNat
  seedWordsOf_key : ∀ {τ : Type} [SeedSource τ] (source : τ),
    shape.seedWordsOf (shape.keyMaterial shape.fullSize source).1 =
      (SeedSource.generate (shape.seedWordCount shape.fullSize) source).1

theorem bits_le_32 (shape : Shape) : shape.bits ≤ 32 :=
  Nat.le_trans shape.bits_le (by decide)

theorem keyEntriesPerWord_fullSize (shape : Shape) :
    shape.keyEntriesPerWord shape.fullSize = 32 / shape.bits := by
  rw [keyEntriesPerWord, beq_self_eq_true, Word.slicesPerWord_full shape.bits_pos shape.bits_le_32]

theorem perWord_pos (shape : Shape) : 0 < 32 / shape.bits :=
  Nat.div_pos shape.bits_le_32 shape.bits_pos

theorem slice_inside (hbits : shape.bits ∣ 32) {r : Nat} (hr : r < 32 / shape.bits) :
    shape.bits * r + shape.bits ≤ 32 := by
  have hle := Nat.mul_le_mul_left shape.bits hr
  rwa [Nat.mul_div_cancel' hbits] at hle

theorem mul_seedWordCount (hwords : 32 / shape.bits ∣ shape.fullSize / 2) :
    32 / shape.bits * shape.seedWordCount shape.fullSize = keyLength shape.fullSize := by
  obtain ⟨count, hcount⟩ := hwords
  have hkey : keyLength shape.fullSize = 32 / shape.bits * count := hcount
  rw [seedWordCount, ← Nat.ceilDiv_eq_add_pred_div, keyEntriesPerWord_fullSize, hkey,
    ceilDiv_eq_of_le (Nat.lt_add_of_pos_right shape.perWord_pos) (Nat.le_refl _)]

theorem toNat_keyEntry (hbits : shape.bits ∣ 32)
    (words : Vector UInt32 (shape.seedWordCount shape.fullSize))
    (k : Fin (keyLength shape.fullSize)) :
    (shape.keyEntry shape.fullSize words k).toNat =
      (words.get ⟨_, shape.div_lt_seedWordCount k.isLt⟩).toNat /
        2 ^ (shape.bits * (k % (32 / shape.bits))) % 2 ^ shape.bits := by
  have hinside := slice_inside hbits (Nat.mod_lt k shape.perWord_pos)
  rw [← keyEntriesPerWord_fullSize] at hinside ⊢
  have hstart : shape.bits * (k % shape.keyEntriesPerWord shape.fullSize) < 32 := by
    have hpos := shape.bits_pos
    omega
  have hreduced : ∀ number,
      number % shape.fullSize % 2 ^ shape.entry = number % 2 ^ shape.bits := by
    intro number
    have hwide : 2 ^ shape.bits ≤ 2 ^ shape.entry :=
      Nat.pow_le_pow_right Nat.two_pos shape.bits_le_entry
    rw [fullSize_eq,
      Nat.mod_eq_of_lt (Nat.lt_of_lt_of_le (Nat.mod_lt _ (Nat.two_pow_pos _)) hwide)]
  rw [keyEntry, BitVec.toNat_ofNat, hreduced, Word.toNat_slice shape.bits_pos hstart]
  rfl

section

variable {τ : Type} [SeedSource τ] (source : τ)

theorem keyMaterial_fst (shape : Shape) (size : Nat) :
    (shape.keyMaterial size source).1 =
      Array.ofFn (shape.keyEntry size
        (SeedSource.generate (shape.seedWordCount size) source).1) := rfl

theorem getElem?_keyMaterial {size k : Nat} (hk : k < keyLength size) :
    (shape.keyMaterial size source).1[k]? =
      some (shape.keyEntry size (SeedSource.generate (shape.seedWordCount size) source).1
        ⟨k, hk⟩) := by
  rw [keyMaterial_fst, Array.getElem?_ofFn, dif_pos hk]

theorem toNat_getD_keyMaterial (hbits : shape.bits ∣ 32)
    (hwords : 32 / shape.bits ∣ shape.fullSize / 2)
    (q : Fin (shape.seedWordCount shape.fullSize)) {r : Nat} (hr : r < 32 / shape.bits) :
    ((shape.keyMaterial shape.fullSize source).1.getD (32 / shape.bits * q + r) 0).toNat =
      ((SeedSource.generate (shape.seedWordCount shape.fullSize) source).1.get q).toNat /
        2 ^ (shape.bits * r) % 2 ^ shape.bits := by
  have hk : 32 / shape.bits * q + r < keyLength shape.fullSize := by
    have hnext := Nat.mul_le_mul_left (32 / shape.bits) q.isLt
    rw [Nat.mul_succ, mul_seedWordCount hwords] at hnext
    omega
  have hword : (32 / shape.bits * q + r) / shape.keyEntriesPerWord shape.fullSize = q := by
    rw [keyEntriesPerWord_fullSize, Nat.mul_add_div shape.perWord_pos, Nat.div_eq_of_lt hr,
      Nat.add_zero]
  rw [Array.getD_eq_getD_getElem?, getElem?_keyMaterial source hk, Option.getD_some,
    toNat_keyEntry hbits]
  simp only [hword, Nat.mul_add_mod, Nat.mod_eq_of_lt hr]

theorem seedWordsOf_keyMaterial (hbits : shape.bits ∣ 32)
    (hwords : 32 / shape.bits ∣ shape.fullSize / 2) :
    shape.seedWordsOf (shape.keyMaterial shape.fullSize source).1 =
      (SeedSource.generate (shape.seedWordCount shape.fullSize) source).1 := by
  apply Vector.ext
  intro q hq
  have hsum : shape.seedWordOf (shape.keyMaterial shape.fullSize source).1 q =
      (SeedSource.generate (shape.seedWordCount shape.fullSize) source).1.get ⟨q, hq⟩ := by
    have hdigits := Finset.sum_congr rfl fun r hr => congrArg (· * 2 ^ (shape.bits * r))
      (toNat_getD_keyMaterial source hbits hwords ⟨q, hq⟩ (Finset.mem_range.1 hr))
    rw [seedWordOf, hdigits, Word.sum_slices, Nat.mul_div_cancel' hbits,
      Nat.mod_eq_of_lt (UInt32.toNat_lt _), UInt32.ofNat_toNat]
  rw [seedWordsOf, Vector.getElem_ofFn]
  exact hsum

end

theorem cutsCleanly (hbits : shape.bits ∣ 32) (hwords : 32 / shape.bits ∣ shape.fullSize / 2) :
    shape.CutsCleanly where
  perWord_eq := shape.keyEntriesPerWord_fullSize
  inside k := slice_inside hbits (Nat.mod_lt k shape.perWord_pos)
  apart j k hlt hword := by
    have hj := Nat.div_add_mod j (32 / shape.bits)
    have hk := Nat.div_add_mod k (32 / shape.bits)
    rw [hword] at hj
    have hslice : j % (32 / shape.bits) + 1 ≤ k % (32 / shape.bits) := by omega
    exact Nat.mul_le_mul_left shape.bits hslice
  size_key source := by
    rw [keyMaterial_fst, Array.size_ofFn]
    rfl
  entry source k hk := by
    have hcount := shape.div_lt_seedWordCount hk
    refine ⟨(SeedSource.generate (shape.seedWordCount shape.fullSize) source).1.get ⟨_, hcount⟩, _,
      ?_, getElem?_keyMaterial source hk, ?_⟩
    · rw [Vector.getElem?_toList, ← keyEntriesPerWord_fullSize]
      exact Vector.getElem?_eq_getElem hcount
    · rw [toNat_keyEntry hbits, BitVec.extractLsb'_toNat, Nat.shiftRight_eq_div_pow]
      rfl
  seedWordsOf_key source := seedWordsOf_keyMaterial source hbits hwords

theorem injective_keyMaterial (hbits : shape.bits ∣ 32)
    (hwords : 32 / shape.bits ∣ shape.fullSize / 2)
    (htwo : 2 ≤ shape.seedWordCount shape.fullSize) :
    Function.Injective fun seed : UInt64 =>
      (shape.keyMaterial shape.fullSize (SplitMix.mk seed)).1 := by
  intro first second hsame
  have hgenerated := congrArg shape.seedWordsOf hsame
  simp only [seedWordsOf_keyMaterial _ hbits hwords] at hgenerated
  exact SplitMix.injective_generate htwo hgenerated

/-- **Key material keeps the seed words.** When entries of a full table cut whole words into whole
slices, the words can be told from the entries, so two seeds never give the same key. -/
theorem key_keeps_seed_words :
    (∀ shape : Shape, shape.bits ∣ 32 → 32 / shape.bits ∣ shape.fullSize / 2 →
        shape.CutsCleanly) ∧
      ∀ shape ∈ [bytes32, bytes64, pairs32], Function.Injective fun seed : UInt64 =>
        (shape.keyMaterial shape.fullSize (SplitMix.mk seed)).1 := by
  refine ⟨fun shape hbits hwords => cutsCleanly hbits hwords, ?_⟩
  intro shape hshape
  simp only [List.mem_cons, List.not_mem_nil, or_false] at hshape
  rcases hshape with rfl | rfl | rfl
  · exact injective_keyMaterial (by decide) (by decide) (by decide)
  · exact injective_keyMaterial (by decide) (by decide) (by decide)
  · exact injective_keyMaterial (by decide) (by decide) (by decide)

/-- Entries of four bits, and two seeds that differ in their last bit. -/
theorem key_keeps_seed_words_nibbles :
    let shape : Shape := ⟨32, 8, 4, by decide, by decide, by decide⟩
    shape.bits ∣ 32 ∧ 32 / shape.bits ∣ shape.fullSize / 2 ∧ shape.CutsCleanly ∧
      bytes32 ∈ [bytes32, bytes64, pairs32] ∧
      (bytes32.keyMaterial bytes32.fullSize (SplitMix.mk 6)).1 ≠
        (bytes32.keyMaterial bytes32.fullSize (SplitMix.mk 7)).1 := by
  intro shape
  have hbits : shape.bits ∣ 32 := by decide
  have hwords : 32 / shape.bits ∣ shape.fullSize / 2 := by decide
  have hmem : bytes32 ∈ [bytes32, bytes64, pairs32] := List.mem_cons_self
  have hseeds : (6 : UInt64) ≠ 7 := by decide
  obtain ⟨hcuts, hinjective⟩ := key_keeps_seed_words
  exact ⟨hbits, hwords, hcuts shape hbits hwords, hmem, (hinjective bytes32 hmem).ne hseeds⟩

end Arc4.Shape

end Keystream
