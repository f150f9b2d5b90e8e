import Keystream.Arc4.Shape
import Keystream.Arc4.State
import Keystream.Engine
import Keystream.Word

/-!
# Keying

A table of `size` entries is keyed with half as many key entries, which are slices of seed words.
The entries of a full table are cut as densely as whole slices allow; a smaller table takes one
entry from each word, reduced modulo its size.
-/

namespace Keystream.Arc4

namespace Shape

def keyLength (size : Nat) : Nat :=
  size / 2

def keyEntriesPerWord (shape : Shape) (size : Nat) : Nat :=
  Word.slicesPerWord shape.bits (size == shape.fullSize)

def seedWordCount (shape : Shape) (size : Nat) : Nat :=
  (keyLength size + shape.keyEntriesPerWord size - 1) / shape.keyEntriesPerWord size

theorem div_lt_seedWordCount (shape : Shape) {size k : Nat} (hk : k < keyLength size) :
    k / shape.keyEntriesPerWord size < shape.seedWordCount size := by
  have hpos : 0 < shape.keyEntriesPerWord size := Word.slicesPerWord_pos _ _
  unfold seedWordCount
  rw [Nat.div_lt_iff_lt_mul hpos]
  have hmod := Nat.div_add_mod (keyLength size + shape.keyEntriesPerWord size - 1)
    (shape.keyEntriesPerWord size)
  have hlt := Nat.mod_lt (keyLength size + shape.keyEntriesPerWord size - 1) hpos
  rw [Nat.mul_comm] at hmod
  omega

def keyEntry (shape : Shape) (size : Nat) (words : Vector UInt32 (shape.seedWordCount size))
    (k : Fin (keyLength size)) : BitVec shape.entry :=
  let perWord := shape.keyEntriesPerWord size
  have : k / perWord < shape.seedWordCount size := shape.div_lt_seedWordCount k.isLt
  BitVec.ofNat shape.entry
    ((Word.slice words[k / perWord] (k % perWord) shape.bits).toNat % size)

def keyMaterial {τ : Type} [SeedSource τ] (shape : Shape) (size : Nat) (source : τ) :
    Array (BitVec shape.entry) × τ :=
  let (words, source) := SeedSource.generate (shape.seedWordCount size) source
  (Array.ofFn (shape.keyEntry size words), source)

def keyed {τ : Type} [SeedSource τ] (shape : Shape) (size : Nat) (source : τ) :
    State shape.entry × τ :=
  let (key, source) := shape.keyMaterial size source
  ((State.identity shape.entry size).schedule key, source)

end Shape

end Keystream.Arc4
