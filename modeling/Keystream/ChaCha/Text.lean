import Keystream.ChaCha
import Keystream.Text.Reader

/-!
# ChaCha states as text

A saved engine is its eight key words and its position. The kept block is not saved: it follows
from the rest.
-/

namespace Keystream.ChaCha

open Text

variable {rounds : Nat}

def savedValues (s : ChaCha rounds) : List Nat :=
  s.key.toList.map UInt32.toNat ++ [s.position.toNat]

def encode (s : ChaCha rounds) : String :=
  String.ofList (writeNumbers s.savedValues)

def readWords : (count : Nat) → Reading (Vector UInt32 count)
  | 0 => return #v[]
  | count + 1 => do
      let earlier ← readWords count
      let word ← Reader.numberBelow UInt32.size
      return earlier.push (UInt32.ofNat word)

def readState : Reading (ChaCha rounds) := do
  let key ← readWords 8
  let position ← Reader.number
  return ofKey key (UInt64.ofNat position)

def decode (text : String) : Except Error (ChaCha rounds) :=
  Reader.decode text 9 readState

def summary (s : ChaCha rounds) : String :=
  let words := ", ".intercalate (s.key.toList.map fun word => toString word.toNat)
  let position := s.position.toNat
  s!"ChaCha \x7b rounds: {rounds}, keysetup: [{words}], ctr: {position}, .. \x7d"

end Keystream.ChaCha
