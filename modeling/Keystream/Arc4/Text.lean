import Keystream.Arc4
import Keystream.Text.Reader

/-!
# Permuted tables as text

A saved engine is its two cursors and then its table. The text does not say how large the table is,
so the reader of it has to know.
-/

namespace Keystream.Arc4

open Text

variable {shape : Shape}

def State.savedValues {e : Nat} (s : State e) : List Nat :=
  s.i :: s.j :: s.table.toList.map BitVec.toNat

def encode (s : Arc4 shape) : String :=
  String.ofList (writeNumbers s.savedValues)

/-- Reads the rest of a table. `seen` marks the values that it has already, which are refused. -/
def readEntries (e size : Nat) :
    (count : Nat) → (seen : Array Bool) → (table : Array (BitVec e)) → Reading (Array (BitVec e))
  | 0, _, table => return table
  | count + 1, seen, table => do
      let value ← Reader.numberBelow size
      if seen.getD value false then
        throw (.repeatedEntry value)
      else
        readEntries e size count (seen.setIfInBounds value true)
          (table.push (BitVec.ofNat e value))

def readState (e size : Nat) : Reading (State e) := do
  let i ← Reader.numberBelow size
  let j ← Reader.numberBelow size
  let table ← readEntries e size size (Array.replicate size false) #[]
  return ⟨i, j, table⟩

def decodeSized (size : Nat) (text : String) : Except Error (Arc4 shape) :=
  Arc4.mk <$> Reader.decode text (size + 2) (readState shape.entry size)

def decode (text : String) : Except Error (Arc4 shape) :=
  decodeSized shape.fullSize text

def decodeWithSize (size : Nat) (text : String) : Except Error (Arc4 shape) := do
  checkSize shape size
  decodeSized size text

def summary (s : Arc4 shape) : String :=
  let bits := shape.bits
  let size := s.size
  let i := s.i
  let j := s.j
  s!"Arc4Engine \x7b bits: {bits}, boxes: {size}, i: {i}, j: {j}, .. \x7d"

end Keystream.Arc4
