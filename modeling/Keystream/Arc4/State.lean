/-!
# The permuted table

A table of entries and two cursors `i` and `j`. Stirring moves both cursors and swaps the entries
they reach. A step stirs once and reads the entry at the sum of the two. A key-schedule pass stirs
once for every place of the table, with key entries added in.

The table is a permutation of the numbers below its size, and the cursors are below its size too;
all operations keep this. They are total without it: a place outside the table reads as zero.
-/

namespace Keystream.Arc4

/-- A table of entries of `e` bits, and its cursors. -/
structure State (e : Nat) where
  i : Nat
  j : Nat
  table : Array (BitVec e)
  deriving DecidableEq

namespace State

variable {e : Nat}

def size (s : State e) : Nat :=
  s.table.size

def entryAt (s : State e) (place : Nat) : Nat :=
  (s.table.getD place 0).toNat

/-- Moves `i` one place on and `j` on by the entry there and by `key`, and swaps the two entries. -/
def stir (key : Nat) : State e → State e
  | ⟨i, j, table⟩ =>
      let size := table.size
      let i := (i + 1) % size
      let j := (j + (table.getD i 0).toNat + key) % size
      ⟨i, j, table.swapIfInBounds i j⟩

/-- The entry at the sum of the entries under the cursors. -/
def output (s : State e) : Nat :=
  s.entryAt ((s.entryAt s.i + s.entryAt s.j) % s.size)

def step (s : State e) : Nat × State e :=
  let s := s.stir 0
  (s.output, s)

def advance : Nat → State e → State e
  | 0, s => s
  | count + 1, s => advance count (s.stir 0)

/-- The first outputs betray the key. The number is sealed, so that no proof unrolls the steps. -/
@[irreducible] def discardedSteps : Nat := 1024

/-- Stirs `count` times with the key entries added in turn, over and over. -/
def passed (key : Array (BitVec e)) (s : State e) (count : Nat) : State e :=
  Nat.fold count (fun n _ s => s.stir (key.getD (n % key.size) 0).toNat)
    { s with i := (s.i + s.size - 1) % s.size }

def keyPass (key : Array (BitVec e)) (s : State e) : State e :=
  s.passed key s.size

/-- The key schedule puts `j` on `i`, and cursors in this position are never on the short cycle. -/
def schedule (key : Array (BitVec e)) (s : State e) : State e :=
  let s := s.keyPass key
  advance discardedSteps { s with j := s.i }

/-- The table that holds every place's own number, with both cursors on the first place. -/
def identity (e size : Nat) : State e :=
  ⟨0, 0, Array.ofFn fun place : Fin size => BitVec.ofNat e place⟩

end State

end Keystream.Arc4
