import Keystream.ChaCha.Stream
import Keystream.Engine

/-!
# The ChaCha engine

The engine gives the words of its key's stream one by one, from a position of 64 bits that wraps.
It keeps the block it last computed. A position at the start of a block makes no promise about
that block, and the next word then computes it afresh; at any other position the kept block is the
one the position lies in. Two engines are equal when key and position agree, whatever blocks they
keep.
-/

namespace Keystream

structure ChaCha (rounds : Nat) where
  block : ChaCha.Block
  key : ChaCha.Key
  position : UInt64

namespace ChaCha

variable {rounds : Nat}

instance : BEq (ChaCha rounds) where
  beq s t := s.key == t.key && s.position == t.position

def defaultSeed : UInt64 := 0xfeedfacecafef00d

/-- A block that nothing was computed for. -/
def blank : Block := Vector.replicate 16 0

/-- The engine with the block of its position computed. -/
def refill (s : ChaCha rounds) : ChaCha rounds :=
  { s with block := blockAt rounds s.key (s.position / 16) }

def ofKey (key : Key) (position : UInt64) : ChaCha rounds :=
  let s := ⟨blank, key, position⟩
  if position % 16 = 0 then s else refill s

/-- Goes to the start of another key's stream. The kept block stays as it is. -/
def rekey (key : Key) (s : ChaCha rounds) : ChaCha rounds :=
  { s with key := key, position := 0 }

def reseed (seed stream : UInt64) (s : ChaCha rounds) : ChaCha rounds :=
  s.rekey (Key.ofSeed seed stream)

def reseedFrom {τ : Type} [SeedSource τ] (source : τ) (s : ChaCha rounds) : ChaCha rounds × τ :=
  let (key, source) := SeedSource.generate 8 source
  (s.rekey key, source)

def ofSeed (seed stream : UInt64) : ChaCha rounds :=
  reseed seed stream ⟨blank, Vector.replicate 8 0, 0⟩

def initial : ChaCha rounds := ofSeed defaultSeed 0

def ofSource {τ : Type} [SeedSource τ] (source : τ) : ChaCha rounds × τ :=
  initial.reseedFrom source

/-- The word at the position, from the kept block unless a new block starts here. -/
def nextWord (s : ChaCha rounds) : UInt32 × ChaCha rounds :=
  let s := if s.position % 16 = 0 then s.refill else s
  (s.block[placeIn s.position], { s with position := s.position + 1 })

/-- Moves the position by `count`, and computes a block only inside one that is not kept yet. -/
def jump (count : UInt64) (s : ChaCha rounds) : ChaCha rounds :=
  let t := { s with position := s.position + count }
  if t.position % 16 ≠ 0 ∧ (s.position % 16 = 0 ∨ t.position / 16 ≠ s.position / 16) then t.refill
  else t

instance : Engine (ChaCha rounds) 32 where
  next s :=
    let (word, s) := s.nextWord
    (word.toBitVec, s)
  discard := jump

end ChaCha

end Keystream
