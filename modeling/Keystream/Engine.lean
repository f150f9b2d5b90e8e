/-!
# Engines and seed sources

An engine is a state that gives one word after another. The sampling and rearranging algorithms
take any engine; what they may rely on is that a word lies between `lo` and `hi`, and that equal
states give equal words. An engine in turn is keyed by a seed source, which it asks once for exactly
the 32-bit words that its key needs.
-/

namespace Keystream

/-- The state after `count` words of `next`. -/
def advanceBy {σ ω : Type} (next : σ → ω × σ) : Nat → σ → σ
  | 0, state => state
  | count + 1, state => advanceBy next count (next state).2

class Engine (σ : Type) (w : outParam Nat) where
  lo : BitVec w := 0
  hi : BitVec w := BitVec.allOnes w
  next : σ → BitVec w × σ
  /-- The state after `count` words that nobody looks at. -/
  discard : UInt64 → σ → σ := fun count state => advanceBy next count.toNat state

namespace Engine

/-- The next `count` words in order, and the state after them. -/
def words {σ : Type} {w : Nat} [Engine σ w] : Nat → σ → List (BitVec w) × σ
  | 0, state => ([], state)
  | count + 1, state =>
      let (word, state) := next state
      let (later, state) := words count state
      (word :: later, state)

end Engine

/-- Some sources change with every request, so they come back along with the words. -/
class SeedSource (τ : Type) where
  generate : (count : Nat) → τ → Vector UInt32 count × τ

end Keystream
