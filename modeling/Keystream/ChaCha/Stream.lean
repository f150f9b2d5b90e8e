import Keystream.ChaCha.Rounds

/-!
# The ChaCha stream

A key of eight words determines a stream of words without any state: block number `n` of the stream
is the permuted input block with the input added back, and the input block holds four constants,
the key, the two halves of `n` and two filler words.
-/

namespace Keystream.ChaCha

/-- The eight words that a stream depends on. -/
abbrev Key := Vector UInt32 8

/-- The text "expand 32-byte k" in little-endian words. -/
def constants : Vector UInt32 4 :=
  #v[0x61707865, 0x3320646e, 0x79622d32, 0x6b206574]

/-- Stands where a key or an input block has nothing to hold. -/
def filler : UInt32 := 0xdeadbeef

/-- The two halves of a number, low half first. -/
def halves (x : UInt64) : Vector UInt32 2 :=
  #v[x.toUInt32, (x >>> 32).toUInt32]

def Key.ofSeed (seed stream : UInt64) : Key :=
  halves seed ++ #v[filler, filler] ++ halves stream ++ #v[filler, filler]

def inputBlock (key : Key) (number : UInt64) : Block :=
  constants ++ key ++ halves number ++ #v[filler, filler]

def blockAt (rounds : Nat) (key : Key) (number : UInt64) : Block :=
  let input := inputBlock key number
  Vector.zipWith (· + ·) (doubleRounds (rounds / 2) input) input

def placeIn (position : UInt64) : Fin 16 :=
  ⟨position.toNat % 16, Nat.mod_lt _ (by decide)⟩

def wordAt (rounds : Nat) (key : Key) (position : UInt64) : UInt32 :=
  (blockAt rounds key (position / 16))[placeIn position]

end Keystream.ChaCha
