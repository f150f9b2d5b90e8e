/-!
# Shapes

The three widths of an engine over a permuted table: of its words, of its entries, and of a table
index. The index width bounds the table: it has at most `2 ^ bits` entries.
-/

namespace Keystream.Arc4

structure Shape where
  /-- Bits in an output word. -/
  word : Nat
  /-- Bits in a table entry. -/
  entry : Nat
  /-- Bits in an index of a full table, which are also the bits one step adds to a word. -/
  bits : Nat
  bits_pos : 0 < bits
  bits_le_entry : bits ≤ entry
  bits_le : bits ≤ 16

namespace Shape

def bytes32 : Shape := ⟨32, 8, 8, by decide, by decide, by decide⟩

def bytes64 : Shape := ⟨64, 8, 8, by decide, by decide, by decide⟩

def pairs32 : Shape := ⟨32, 16, 16, by decide, by decide, by decide⟩

def fullSize (shape : Shape) : Nat :=
  1 <<< shape.bits

def Supports (shape : Shape) (size : Nat) : Prop :=
  2 ≤ size ∧ size ≤ shape.fullSize

instance (shape : Shape) (size : Nat) : Decidable (shape.Supports size) :=
  inferInstanceAs (Decidable (_ ∧ _))

end Shape

end Keystream.Arc4
