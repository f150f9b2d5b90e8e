import Keystream.Arc4.Keying
import Keystream.Engine
import Keystream.Error
import Keystream.SplitMix
import Keystream.Word

/-!
# The permuted-table engine

An engine of a given shape: the state of a permuted table, read out in words. Each step of the
table gives one chunk of a word, the lowest chunk first, until the chunks cover the word.
-/

namespace Keystream

structure Arc4 (shape : Arc4.Shape) extends Arc4.State shape.entry
  deriving DecidableEq

namespace Arc4

variable {shape : Shape}

def defaultSeed : UInt64 := 0xd0beef41

def ofSource {τ : Type} [SeedSource τ] (source : τ) : Arc4 shape × τ :=
  let (state, source) := shape.keyed shape.fullSize source
  (⟨state⟩, source)

def ofSeed (seed : UInt64) : Arc4 shape :=
  (ofSource (SplitMix.mk seed)).1

def initial : Arc4 shape := ofSeed defaultSeed

def checkSize (shape : Shape) (size : Nat) : Except Error Unit :=
  if shape.Supports size then .ok () else .error (.unsupportedSize size shape.fullSize)

/-- An engine with a table of `size` entries. The source is not asked when the size is refused. -/
def withSize {τ : Type} [SeedSource τ] (size : Nat) (source : τ) :
    Except Error (Arc4 shape × τ) := do
  checkSize shape size
  let (state, source) := shape.keyed size source
  return (⟨state⟩, source)

def reseedFrom {τ : Type} [SeedSource τ] (source : τ) (s : Arc4 shape) : Arc4 shape × τ :=
  let (state, source) := shape.keyed s.size source
  (⟨state⟩, source)

def reseed (seed : UInt64) (s : Arc4 shape) : Arc4 shape :=
  (s.reseedFrom (SplitMix.mk seed)).1

/-- Runs the key schedule on the table as it is, with the given key entries. -/
def rekey (key : Array (BitVec shape.entry)) (s : Arc4 shape) : Except Error (Arc4 shape) :=
  if key.isEmpty then .error .emptyKey else .ok ⟨s.toState.schedule key⟩

/-- Steps the table and sets each output in `word`, from bit `shift` on to the end of the word. -/
def State.gather {e w : Nat} (bits : Nat) (hbits : 0 < bits) (shift : Nat) (word : BitVec w)
    (s : State e) : BitVec w × State e :=
  if shift < w then
    let (chunk, s) := s.step
    gather bits hbits (shift + bits) (Word.orShifted word chunk shift) s
  else
    (word, s)
termination_by w - shift

/-- The number of steps for `count` words, or the largest number of 64 bits if that is smaller. -/
def stepsFor (shape : Shape) (count : UInt64) : Nat :=
  min (count.toNat * Word.chunkCount shape.word shape.bits) (UInt64.size - 1)

instance : Engine (Arc4 shape) shape.word where
  next s :=
    let (word, state) := s.toState.gather shape.bits shape.bits_pos 0 0
    (word, ⟨state⟩)
  discard count s := ⟨s.toState.advance (stepsFor shape count)⟩

end Arc4

end Keystream
