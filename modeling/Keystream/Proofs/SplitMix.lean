import Keystream.Proofs.Text.Restored
import Keystream.SplitMix

/-!
# Saved SplitMix engines

A saved engine is one number. As the state may be any number of 64 bits, every number that can be
read is accepted, and an engine is restored from its own text as it was.
-/

namespace Keystream.SplitMix

open Text Text.Format

def format : Format where
  count := 1
  limit? _ := none
  distinctFrom := 1

def savedValues (s : SplitMix) : List Nat :=
  [s.state.toNat]

theorem fits_savedValues (s : SplitMix) : format.Fits s.savedValues where
  length_eq := rfl
  lt_size := by
    intro value hmem
    rw [List.mem_singleton.1 hmem]
    exact s.state.toNat_lt
  lt_limit := by
    intro place value _ limit hlimit
    cases hlimit
  nodup := List.nodup_nil

theorem savedValues_injective : Function.Injective savedValues := by
  intro s t hvalues
  have hstate : s.state = t.state := UInt64.toNat_inj.1 (List.singleton_inj.1 hvalues)
  cases s
  cases t
  exact congrArg mk hstate

theorem decodedBy_decode : format.DecodedBy savedValues decode := by
  refine decodedBy_of_follows (fun tokens => ?_) fun _ => rfl
  refine Follows.number_bind Nat.zero_lt_one rfl (Nat.zero_le _) fun state hstate => ?_
  exact Follows.pure (congrArg List.singleton (UInt64.toNat_ofNat_of_lt' hstate))

theorem decode_encode (s : SplitMix) : decode s.encode = .ok s := by
  obtain ⟨t, hdecode, hvalues⟩ := decodedBy_decode.exists_ok_writeNumbers (fits_savedValues s)
  rw [savedValues_injective hvalues] at hdecode
  exact hdecode

end Keystream.SplitMix
