import Keystream.Arrangement
import Keystream.Proofs.Draw.First
import Mathlib.Algebra.Group.Nat.Defs

/-!
# Draws inside a rearrangement

A shuffle and a sort are told how to draw a position among some number of items. What is known of
their runs depends on a few facts about these draws only: that the positions are among the items, in
which draw a run ended early, and below which bounds it has drawn.
-/

namespace Keystream

variable {α σ : Type} {pick : Nat → Draw σ Nat} {size : Nat}

/-- The positions that are drawn are among the items, of which there are at most `size`. -/
def PicksAmong (pick : Nat → Draw σ Nat) (size : Nat) : Prop :=
  ∀ len, 2 ≤ len → len ≤ size → ∀ engine chosen after,
    pick len engine = (.ok chosen, after) → chosen < len

theorem PicksAmong.mono {size smaller : Nat} (hpicks : PicksAmong pick size)
    (hle : smaller ≤ size) : PicksAmong pick smaller := by
  intro len htwo hlen
  exact hpicks len htwo (Nat.le_trans hlen hle)

theorem picksAmong_index {w budget : Nat} [Engine σ w] (hfits : size < 2 ^ w) :
    PicksAmong (Draw.index budget : Nat → Draw σ Nat) size := by
  intro len htwo hlen engine chosen after hindex
  exact Draw.lt_of_index (by omega) (by omega) hindex

/-- Some draw among at most `size` items ended in `reason` and left the engine as `after`. -/
def DrawEnds (pick : Nat → Draw σ Nat) (size : Nat) (reason : Stop) (after : σ) : Prop :=
  ∃ len start, 2 ≤ len ∧ len ≤ size ∧ pick len start = (.error reason, after)

theorem DrawEnds.mono {size larger : Nat} {reason : Stop} {after : σ}
    (hends : DrawEnds pick size reason after) (hle : size ≤ larger) :
    DrawEnds pick larger reason after := by
  obtain ⟨len, start, htwo, hlen, hdraw⟩ := hends
  exact ⟨len, start, htwo, Nat.le_trans hlen hle, hdraw⟩

/-- Draws like `pick` and keeps a list of the bounds that were drawn below. -/
def Draw.recorded (pick : Nat → Draw σ Nat) (bound : Nat) : Draw (σ × List Nat) Nat :=
  fun (engine, bounds) =>
    let (drawn, engine) := pick bound engine
    (drawn, engine, bounds ++ [bound])

theorem Draw.recorded_eq {bound : Nat} {engine after : σ} {answer : Except Stop Nat}
    (hpick : pick bound engine = (answer, after)) (bounds : List Nat) :
    Draw.recorded pick bound (engine, bounds) = (answer, after, bounds ++ [bound]) := by
  rw [Draw.recorded, hpick]

def Arrangement.withBounds (a : Arrangement α σ) (bounds : List Nat) :
    Arrangement α (σ × List Nat) :=
  ⟨a.items, (a.engine, bounds), a.ended⟩

/-- What a run over `size` items draws below: fewer bounds than items, from 2 to their number. -/
structure BoundsWithin (size : Nat) (bounds : List Nat) : Prop where
  length_le : bounds.length ≤ size - 1
  between : ∀ bound ∈ bounds, 2 ≤ bound ∧ bound ≤ size

theorem boundsWithin_nil (size : Nat) : BoundsWithin size [] :=
  ⟨Nat.zero_le _, by simp⟩

theorem BoundsWithin.join {size fewer others : Nat} {bounds later : List Nat}
    (hbounds : BoundsWithin fewer bounds) (hlater : BoundsWithin others later)
    (hsum : fewer + others < size) (htwo : 2 ≤ size) :
    BoundsWithin size (size :: (bounds ++ later)) := by
  have hlength := hbounds.length_le
  have hlengthLater := hlater.length_le
  refine ⟨?_, ?_⟩
  · rw [List.length_cons, List.length_append]
    omega
  · intro bound hmem
    rcases List.mem_cons.1 hmem with rfl | hmem
    · omega
    rcases List.mem_append.1 hmem with hmem | hmem
    · have hbetween := hbounds.between bound hmem
      omega
    · have hbetween := hlater.between bound hmem
      omega

theorem boundsWithin_singleton {size : Nat} (htwo : 2 ≤ size) : BoundsWithin size [size] :=
  (boundsWithin_nil 0).join (boundsWithin_nil 0) (by omega) htwo

end Keystream
