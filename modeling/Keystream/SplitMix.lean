import Keystream.Engine
import Keystream.Text.Reader

/-!
# The SplitMix engine

A counter that moves by a fixed odd step and a finalizer that scrambles it. The state may start
anywhere, so the engine expands a single number into the seed words of the others. A jump of any
length is one multiplication.
-/

namespace Keystream

structure SplitMix where
  state : UInt64
  deriving Repr, DecidableEq

namespace SplitMix

/-- The step of the counter, `2 ^ 64` divided by the golden ratio and rounded down. -/
def gamma : UInt64 := 0x9E3779B97F4A7C15

def finalize (z : UInt64) : UInt64 :=
  let z := (z ^^^ (z >>> 30)) * 0xBF58476D1CE4E5B9
  let z := (z ^^^ (z >>> 27)) * 0x94D049BB133111EB
  z ^^^ (z >>> 31)

def initial : SplitMix := ⟨0⟩

def next64 (s : SplitMix) : UInt64 × SplitMix :=
  let state := s.state + gamma
  (finalize state, ⟨state⟩)

def jump (count : UInt64) (s : SplitMix) : SplitMix :=
  ⟨s.state + gamma * count⟩

instance : Engine SplitMix 64 where
  next s :=
    let (word, s) := s.next64
    (word.toBitVec, s)
  discard := jump

/-- Each output gives its low half and then its high half, which an odd count leaves unused. -/
def seedWords : Nat → SplitMix → List UInt32 × SplitMix
  | 0, s => ([], s)
  | 1, s =>
      let (word, s) := s.next64
      ([word.toUInt32], s)
  | count + 2, s =>
      let (word, s) := s.next64
      let (later, s) := seedWords count s
      (word.toUInt32 :: (word >>> 32).toUInt32 :: later, s)

theorem length_seedWords (count : Nat) (s : SplitMix) : (seedWords count s).1.length = count := by
  fun_induction seedWords count s <;> simp_all

instance : SeedSource SplitMix where
  generate count s :=
    let words := seedWords count s
    (⟨words.1.toArray, by simp [words, length_seedWords]⟩, words.2)

def encode (s : SplitMix) : String :=
  String.ofList (Text.writeNumbers [s.state.toNat])

def decode (text : String) : Except Error SplitMix :=
  Text.Reader.decode text 1 do
    let state ← Text.Reader.number
    return ⟨UInt64.ofNat state⟩

def summary (s : SplitMix) : String :=
  let state := s.state.toNat
  s!"SplitMix64 \x7b state: {state} \x7d"

end SplitMix

end Keystream
