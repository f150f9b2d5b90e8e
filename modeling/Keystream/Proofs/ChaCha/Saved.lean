import Keystream.Proofs.ChaCha.Alike
import Keystream.Proofs.Text.Restored

/-!
# Saved ChaCha engines

A saved engine is nine numbers, of which the first eight are words of 32 bits. The kept block is not
among them. An engine that is restored from the text of another one therefore has its key and its
position, and a block that is current there, which need not be the one that the other engine keeps.
-/

namespace Keystream.ChaCha

open Stateful Text Text.Format

def format : Format where
  count := 9
  limit? place := if place < 8 then some UInt32.size else none
  distinctFrom := 9

variable {rounds : Nat} {s t : ChaCha rounds} {tokens : List (List Char)}

/-! ### The numbers of a saved engine -/

theorem length_savedValues (s : ChaCha rounds) : s.savedValues.length = 9 := by
  simp [savedValues]

theorem beq_iff_savedValues : (s == t) = true ↔ s.savedValues = t.savedValues := by
  rw [beq_iff]
  constructor
  · intro ⟨hkey, hposition⟩
    rw [savedValues, savedValues, hkey, hposition]
  · intro hvalues
    have hinjective : Function.Injective UInt32.toNat := fun _ _ => UInt32.toNat_inj.1
    obtain ⟨hwords, hposition⟩ := List.append_inj' hvalues rfl
    exact ⟨Vector.toList_inj.1 (hinjective.list_map hwords),
      UInt64.toNat_inj.1 (List.singleton_inj.1 hposition)⟩

theorem fits_savedValues (s : ChaCha rounds) : format.Fits s.savedValues where
  length_eq := length_savedValues s
  lt_size := by
    intro value hmem
    rcases List.mem_append.1 hmem with hword | hposition
    · obtain ⟨word, -, rfl⟩ := List.mem_map.1 hword
      exact Nat.lt_trans word.toNat_lt (by decide)
    · rw [List.mem_singleton.1 hposition]
      exact s.position.toNat_lt
  lt_limit := by
    intro place value hvalue limit hlimit
    obtain ⟨hplace, rfl⟩ : place < 8 ∧ UInt32.size = limit := by simpa [format] using hlimit
    have hlength : (s.key.toList.map UInt32.toNat).length = 8 := by simp
    rw [savedValues, List.getElem?_append_left (hlength.symm ▸ hplace)] at hvalue
    obtain ⟨word, -, rfl⟩ := List.mem_map.1 (List.mem_of_getElem? hvalue)
    exact word.toNat_lt
  nodup := by
    have hnone : s.savedValues.drop 9 = [] :=
      List.drop_eq_nil_of_le (Nat.le_of_eq (length_savedValues s))
    exact hnone.symm ▸ List.nodup_nil

/-! ### Reading -/

theorem follows_readWords {count : Nat} (hcount : count ≤ 8) :
    format.Follows tokens [] (readWords count) fun words => words.toList.map UInt32.toNat := by
  induction count with
  | zero => exact Follows.pure rfl
  | succ count ih =>
      refine Follows.bind (ih (Nat.le_of_succ_le hcount)) fun earlier => ?_
      have hlength : (earlier.toList.map UInt32.toNat).length = count := by simp
      refine Follows.numberBelow_bind ?_ ?_ ?_ fun word hword => Follows.pure ?_
      · rw [hlength]
        exact Nat.lt_succ_of_lt hcount
      · rw [hlength]
        exact if_pos hcount
      · rw [hlength]
        exact Nat.le_succ_of_le (Nat.le_of_succ_le hcount)
      · rw [Vector.toList_push, List.map_append, List.map_singleton,
          UInt32.toNat_ofNat_of_lt' hword]

theorem follows_readState :
    format.Follows tokens [] (readState : Reading (ChaCha rounds)) savedValues := by
  refine Follows.bind (follows_readWords (Nat.le_refl 8)) fun key => ?_
  refine Follows.number_bind (by simp [format]) (by simp [format]) (by simp [format])
    fun position hposition => Follows.pure ?_
  rw [savedValues, key_ofKey, position_ofKey, UInt64.toNat_ofNat_of_lt' hposition]

theorem decodedBy_decode :
    format.DecodedBy savedValues (decode : String → Except Error (ChaCha rounds)) :=
  decodedBy_of_follows (fun _ => follows_readState) fun _ => length_savedValues _

/-! ### Restored engines -/

/-- From its own text an engine is restored up to the block that it keeps. -/
theorem decode_encode (s : ChaCha rounds) :
    decode s.encode = .ok (ofKey s.key s.position : ChaCha rounds) := by
  obtain ⟨t, hdecode, hvalues⟩ : ∃ t : ChaCha rounds,
      decode s.encode = .ok t ∧ t.savedValues = s.savedValues :=
    decodedBy_decode.exists_ok_writeNumbers (fits_savedValues s)
  obtain ⟨hkey, hposition⟩ := beq_iff.1 (beq_iff_savedValues.2 hvalues)
  rw [← hkey, ← hposition, ← eq_ofKey_of_decode hdecode]
  exact hdecode

theorem Current.same_ofKey (hs : s.Current) : Same (ofKey s.key s.position) s :=
  ⟨current_ofKey _ _, hs, key_ofKey _ _, position_ofKey _ _⟩

end Keystream.ChaCha
