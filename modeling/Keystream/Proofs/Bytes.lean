import Keystream.Bytes
import Keystream.Proofs.Stateful
import Mathlib.Logic.Basic
import Mathlib.Tactic.SplitIfs

/-!
# Bytes from related states

Numbers and bytes are made of the words of an engine, and of nothing else: that much follows from
the laws of an adapter, which the one in use obeys. When related states give the same words and stay
related, they therefore give the same numbers and the same bytes, any number of them, and stay
related.
-/

namespace Keystream

open Stateful

variable {σ : Type} {adapter : Adapter}

namespace Adapter

theorem bytes_fillLowFirst_of_lt_eight {next32 : σ → UInt32 × σ} {next64 : σ → UInt64 × σ}
    {count : Nat} (hcount : count < 8) (s : σ) :
    fillLowFirst next32 next64 count s =
      if 4 < count then
        (littleEndian count (next64 s).1.toNat, (next64 s).2)
      else if 0 < count then
        (littleEndian count (next32 s).1.toNat, (next32 s).2)
      else
        ([], s) := by
  rw [fillLowFirst]
  intro more heq
  omega

theorem lawful_lowFirst : lowFirst.Lawful where
  join_fst next32 s := by
    have hlow := (next32 s).1.toBitVec.isLt
    change ((next32 (next32 s).2).1.toBitVec ++ (next32 s).1.toBitVec).toNat = _
    rw [BitVec.toNat_append, ← Nat.shiftLeft_add_eq_or_of_lt hlow, Nat.shiftLeft_eq, Nat.mul_comm]
    rfl
  join_snd _ _ := rfl
  fills next32 next64 :=
    ⟨fun _ _ => rfl, fun hcount s => bytes_fillLowFirst_of_lt_eight hcount s⟩

end Adapter

namespace Feed

theorem fills_ofWords32 [Engine σ 32] (hadapter : adapter.Lawful) :
    (ofWords32 adapter : Feed σ).Fills :=
  hadapter.fills _ _

theorem fills_ofWords64 [Engine σ 64] (hadapter : adapter.Lawful) :
    (ofWords64 adapter : Feed σ).Fills :=
  hadapter.fills _ _

variable {related : σ → σ → Prop} {feed : Feed σ}

/-- Related states give the same numbers, and stay related. -/
structure Respects (feed : Feed σ) (related : σ → σ → Prop) : Prop where
  next32 : ∀ {s t}, related s t → Agree related (feed.next32 s) (feed.next32 t)
  next64 : ∀ {s t}, related s t → Agree related (feed.next64 s) (feed.next64 t)

theorem respects_ofWords32 [Engine σ 32] (hadapter : adapter.Lawful)
    (hnext : ∀ {s t : σ}, related s t → Agree related (Engine.next s) (Engine.next t)) :
    (ofWords32 adapter : Feed σ).Respects related := by
  have hnext32 : ∀ {s t : σ}, related s t →
      Agree related ((ofWords32 adapter).next32 s) ((ofWords32 adapter).next32 t) := by
    intro s t hst
    obtain ⟨hword, hafter⟩ := hnext hst
    exact ⟨congrArg UInt32.ofBitVec hword, hafter⟩
  refine ⟨hnext32, ?_⟩
  intro s t hst
  obtain ⟨hlow, hbetween⟩ := hnext32 hst
  obtain ⟨hhigh, hafter⟩ := hnext32 hbetween
  refine ⟨UInt64.toNat_inj.1 ?_, ?_⟩
  · rw [ofWords32, Adapter.feed, hadapter.join_fst, hadapter.join_fst]
    exact congrArg₂ (fun low high : UInt32 => UInt32.size * high.toNat + low.toNat) hlow hhigh
  · rw [ofWords32, Adapter.feed, hadapter.join_snd, hadapter.join_snd]
    exact hafter

theorem Respects.bytes (hfeed : feed.Respects related) (hfills : feed.Fills) {s t : σ}
    (hst : related s t) (count : Nat) :
    Agree related (feed.bytes count s) (feed.bytes count t) := by
  -- eight bytes come off the front at a time, so the step is not from one count to the next
  induction count using Nat.strongRecOn generalizing s t with
  | ind count ih =>
      obtain ⟨hnumber, hafter⟩ := hfeed.next64 hst
      rcases Nat.lt_or_ge count 8 with hfew | hmany
      · rw [hfills.bytes_of_lt_eight hfew, hfills.bytes_of_lt_eight hfew]
        split_ifs with hfour hsome
        · exact ⟨congrArg (fun number => littleEndian count number.toNat) hnumber, hafter⟩
        · obtain ⟨hshort, hlast⟩ := hfeed.next32 hst
          exact ⟨congrArg (fun number => littleEndian count number.toNat) hshort, hlast⟩
        · exact ⟨rfl, hst⟩
      · obtain ⟨more, rfl⟩ := Nat.exists_eq_add_of_le' hmany
        obtain ⟨hlater, hlast⟩ := ih more (by omega) hafter
        rw [hfills.bytes_add_eight, hfills.bytes_add_eight]
        refine ⟨?_, hlast⟩
        rw [hnumber, hlater]

end Feed

end Keystream
