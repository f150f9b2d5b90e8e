/-!
# Words

A word of `w` bits is a `BitVec w`: addition and subtraction wrap modulo `2 ^ w`, and
`BitVec.ofNat w` keeps the low `w` bits of a number. Sizes become words where they fit, and words
are assembled from shifted chunks.

Seed material comes in words of 32 bits, a permutation table takes narrower entries, and an output
word takes as many table entries as cover its width. The counts involved are how many entries one
seed word gives and how many chunks an output word needs.
-/

namespace Keystream.Word

def ofSize? (w size : Nat) : Option (BitVec w) :=
  if size ≤ (BitVec.allOnes w).toNat then some (BitVec.ofNat w size) else none

/-- Sets the bits of `chunk` in `word`, starting at bit `shift`. Bits past the end are lost. -/
def orShifted {w : Nat} (word : BitVec w) (chunk shift : Nat) : BitVec w :=
  word ||| BitVec.ofNat w chunk <<< shift

def seedBits : Nat := 32

/-- Only a full table takes more than one entry from a word: a smaller one reduces each entry modulo
its size, and the bits above the slice then matter. -/
def slicesPerWord (width : Nat) (full : Bool) : Nat :=
  if !full || width == 0 || seedBits < width then 1 else seedBits / width

theorem slicesPerWord_pos (width : Nat) (full : Bool) : 0 < slicesPerWord width full := by
  unfold slicesPerWord
  split
  · exact Nat.one_pos
  · rename_i hsome
    simp only [Bool.or_eq_true, beq_iff_eq, decide_eq_true_eq, not_or, Nat.not_lt] at hsome
    exact Nat.div_pos hsome.2 (Nat.pos_of_ne_zero hsome.1.2)

/-- Bits above the slice stay, and a slice that starts past the end is zero. The index counts modulo
`2 ^ 32`. -/
def slice (word : UInt32) (index width : Nat) : UInt32 :=
  let shift := index % UInt32.size * width
  if shift < seedBits then word >>> UInt32.ofNat shift else 0

/-- How many chunks cover a word; the last may overhang. -/
def chunkCount (wordBits chunkBits : Nat) : Nat :=
  (wordBits + chunkBits - 1) / chunkBits

@[simp] theorem chunkCount_zero {chunkBits : Nat} (hpos : 0 < chunkBits) :
    chunkCount 0 chunkBits = 0 := by
  unfold chunkCount
  exact Nat.div_eq_of_lt (by omega)

theorem chunkCount_of_pos {wordBits chunkBits : Nat} (hword : 0 < wordBits)
    (hchunk : 0 < chunkBits) :
    chunkCount wordBits chunkBits = chunkCount (wordBits - chunkBits) chunkBits + 1 := by
  have hfirst : (wordBits + chunkBits - 1) / chunkBits = (wordBits - 1) / chunkBits + 1 := by
    rw [← Nat.add_div_right _ hchunk]
    congr 1
    omega
  unfold chunkCount
  rw [hfirst]
  rcases Nat.lt_or_ge chunkBits wordBits with hmore | hlast
  · congr 2
    omega
  · rw [Nat.div_eq_of_lt (by omega), Nat.div_eq_of_lt (by omega)]

end Keystream.Word
