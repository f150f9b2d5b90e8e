import Keystream.Proofs.Arc4.Decode
import Keystream.Proofs.Text.Tokens

/-!
# Saved engines

The text of a valid engine reads as its cursors and its table. A decoder that accepts the text
therefore gives back the engine that was saved, and it does accept the text if it is asked for a
table of the right size.
-/

namespace Keystream.Arc4

open Text

variable {shape : Shape} {s t : Arc4 shape}

theorem read?_tokens_encode (hs : s.Valid) (hsize : shape.Supports s.size) :
    (tokens s.encode.toList).map Decimal.read? = s.savedValues.map some := by
  rw [encode, String.toList_ofList]
  exact read?_tokens_writeNumbers fun value hmem =>
    Nat.lt_trans (hs.savedValues_lt value hmem) hsize.lt_uint64

theorem decodeSized_encode_eq_ok (hs : s.Valid) (hsupports : shape.Supports s.size) {size : Nat}
    (hsize : shape.Supports size) : decodeSized size s.encode = .ok t ↔ t = s ∧ s.size = size := by
  rw [decodeSized_eq_ok hsize, read?_tokens_encode hs hsupports]
  constructor
  · rintro ⟨hsaved, -, hvalues⟩
    have hmap : s.savedValues = t.savedValues :=
      (List.map_inj_right fun _ _ => Option.some.inj).1 hvalues
    obtain rfl : t = s := congrArg Arc4.mk (State.savedValues_injective hmap.symm)
    exact ⟨rfl, hsaved⟩
  · rintro ⟨rfl, hsaved⟩
    exact ⟨hsaved, hs, rfl⟩

end Keystream.Arc4
