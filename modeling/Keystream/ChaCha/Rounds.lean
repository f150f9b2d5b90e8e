/-!
# The ChaCha rounds

A block is sixteen words of 32 bits. A double round takes eight quarter rounds, four on the columns
of the block, read as four rows of four, and four on its diagonals.
-/

namespace Keystream.ChaCha

abbrev Block := Vector UInt32 16

/-- The word rotated left by `count` bits, for a count from 1 to 31. -/
def rotateLeft (x count : UInt32) : UInt32 :=
  x <<< count ||| x >>> (32 - count)

def quarterRound (a b c d : UInt32) : UInt32 × UInt32 × UInt32 × UInt32 :=
  let a := a + b
  let d := rotateLeft (d ^^^ a) 16
  let c := c + d
  let b := rotateLeft (b ^^^ c) 12
  let a := a + b
  let d := rotateLeft (d ^^^ a) 8
  let c := c + d
  let b := rotateLeft (b ^^^ c) 7
  (a, b, c, d)

def quarterRoundAt (a b c d : Fin 16) (block : Block) : Block :=
  let (a', b', c', d') := quarterRound block[a] block[b] block[c] block[d]
  (((block.set a a').set b b').set c c').set d d'

def columnRound (block : Block) : Block :=
  let block := quarterRoundAt 0 4 8 12 block
  let block := quarterRoundAt 1 5 9 13 block
  let block := quarterRoundAt 2 6 10 14 block
  quarterRoundAt 3 7 11 15 block

def diagonalRound (block : Block) : Block :=
  let block := quarterRoundAt 0 5 10 15 block
  let block := quarterRoundAt 1 6 11 12 block
  let block := quarterRoundAt 2 7 8 13 block
  quarterRoundAt 3 4 9 14 block

def doubleRounds : Nat → Block → Block
  | 0, block => block
  | count + 1, block => doubleRounds count (diagonalRound (columnRound block))

end Keystream.ChaCha
