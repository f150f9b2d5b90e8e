import Keystream.ChaCha.Rounds

/-!
# The rounds by rows

The same rounds on a block held as four rows of four lanes. One quarter round works on all lanes at
once, which is a column round. Turning the lower rows by one, two and three lanes lines the
diagonals up as columns, so the same step is then a diagonal round, and turning them back restores
the layout.
-/

namespace Keystream.ChaCha

abbrev Row := Vector UInt32 4

namespace Row

def add (x y : Row) : Row :=
  Vector.zipWith (· + ·) x y

def xorRotate (x y : Row) (count : UInt32) : Row :=
  Vector.zipWith (fun a b => rotateLeft (a ^^^ b) count) x y

def turn (x : Row) (count : Nat) : Row :=
  Vector.ofFn fun lane : Fin 4 => x[(lane.val + count) % 4]

end Row

/-- A block as four rows. -/
structure Rows where
  a : Row
  b : Row
  c : Row
  d : Row

namespace Rows

def rowOf (block : Block) (index : Fin 4) : Row :=
  Vector.ofFn fun lane : Fin 4 => block[4 * index.val + lane.val]

def ofBlock (block : Block) : Rows :=
  ⟨rowOf block 0, rowOf block 1, rowOf block 2, rowOf block 3⟩

def toBlock (rows : Rows) : Block :=
  rows.a ++ rows.b ++ rows.c ++ rows.d

def quarterRound (rows : Rows) : Rows :=
  let ⟨a, b, c, d⟩ := rows
  let a := a.add b
  let d := d.xorRotate a 16
  let c := c.add d
  let b := b.xorRotate c 12
  let a := a.add b
  let d := d.xorRotate a 8
  let c := c.add d
  let b := b.xorRotate c 7
  ⟨a, b, c, d⟩

/-- Turns the second, third and fourth row by the given numbers of lanes. -/
def turn (rows : Rows) (b c d : Nat) : Rows :=
  ⟨rows.a, rows.b.turn b, rows.c.turn c, rows.d.turn d⟩

def doubleRound (rows : Rows) : Rows :=
  (rows.quarterRound.turn 1 2 3).quarterRound.turn 3 2 1

def doubleRounds : Nat → Rows → Rows
  | 0, rows => rows
  | count + 1, rows => doubleRounds count rows.doubleRound

end Rows

def rowDoubleRounds (count : Nat) (block : Block) : Block :=
  (Rows.doubleRounds count (Rows.ofBlock block)).toBlock

inductive Layout
  | byWords
  | byRows
  deriving Repr, DecidableEq

def Layout.doubleRounds : Layout → Nat → Block → Block
  | byWords, count, block => ChaCha.doubleRounds count block
  | byRows, count, block => rowDoubleRounds count block

end Keystream.ChaCha
