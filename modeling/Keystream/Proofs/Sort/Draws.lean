import Keystream.Proofs.Draw.Picks
import Keystream.Proofs.Sort.Turn

/-!
# The draws of a sort

Every call of the sort that has two or more items draws one position among them, and its nested
calls have fewer items between them. So all bounds that a run draws below lie between 2 and the
number of items, whatever the pivots and whatever the comparison, and a run has fewer draws than
items.
-/

namespace Keystream

variable {α σ : Type} {lt gt : α → α → Bool} {pick : Nat → Draw σ Nat} {items : Array α}
  {engine : σ} {chosen : Nat} {after : σ} {split : Vector α items.size} {middle : Fin items.size}
  {reason : Stop}

/-! ### The draws that a run makes -/

/-- The run draws below `len` with the engine `start` in its own turn, a nested call or a later
turn. -/
inductive MakesDraw (pick : Nat → Draw σ Nat) (lt gt : α → α → Bool) :
    Array α → σ → Nat → σ → Prop
  | first {items : Array α} {engine : σ} (htwo : 2 ≤ items.size) :
      MakesDraw pick lt gt items engine items.size engine
  | nested {items : Array α} {engine : σ} {chosen : Nat} {after : σ} {split : Vector α items.size}
      {middle : Fin items.size} {len : Nat} {start : σ}
      (hcut : Cut pick lt gt items engine chosen after split middle)
      (hshorter : MakesDraw pick lt gt (shorterSide split middle) after len start) :
      MakesDraw pick lt gt items engine len start
  | later {items : Array α} {engine : σ} {chosen : Nat} {after : σ} {split : Vector α items.size}
      {middle : Fin items.size} {len : Nat} {start : σ}
      (hcut : Cut pick lt gt items engine chosen after split middle)
      (hfirst : (sortWith pick lt gt (shorterSide split middle) after).ended = .ok ())
      (hlonger : MakesDraw pick lt gt (longerSide split middle)
        (sortWith pick lt gt (shorterSide split middle) after).engine len start) :
      MakesDraw pick lt gt items engine len start

theorem MakesDraw.between {len : Nat} {start : σ}
    (hmakes : MakesDraw pick lt gt items engine len start) : 2 ≤ len ∧ len ≤ items.size := by
  induction hmakes with
  | first htwo => exact ⟨htwo, Nat.le_refl _⟩
  | nested hcut hshorter ih =>
      exact ⟨ih.1, Nat.le_trans ih.2 (Nat.le_of_lt (size_shorterSide_lt _ _))⟩
  | later hcut hfirst hlonger ih =>
      exact ⟨ih.1, Nat.le_trans ih.2 (Nat.le_of_lt (size_longerSide_lt _ _))⟩

theorem MakesDraw.exists_ok {len : Nat} {start : σ}
    (hmakes : MakesDraw pick lt gt items engine len start)
    (hended : (sortWith pick lt gt items engine).ended = .ok ()) :
    ∃ chosen after, pick len start = (.ok chosen, after) := by
  induction hmakes with
  | @first items engine htwo =>
      rcases hpick : pick items.size engine with ⟨reason | chosen, after⟩
      · rw [sortWith_of_undrawn htwo hpick] at hended
        cases hended
      · exact ⟨chosen, after, rfl⟩
  | @nested items engine _ after split middle _ _ hcut hshorter ih =>
      rcases hfirst : (sortWith pick lt gt (shorterSide split middle) after).ended with _ | done
      · rw [hcut.sortWith_of_error rfl hfirst] at hended
        cases hfirst.symm.trans hended
      · exact ih hfirst
  | later hcut hfirst hlonger ih =>
      rw [hcut.sortWith_of_ok rfl hfirst rfl] at hended
      exact ih hended

/-! ### One turn beside its record -/

theorem Cut.recorded (hcut : Cut pick lt gt items engine chosen after split middle)
    (drawn : List Nat) :
    Cut (Draw.recorded pick) lt gt items (engine, drawn) chosen (after, drawn ++ [items.size]) split
      middle :=
  ⟨hcut.two_le, Draw.recorded_eq hcut.pick_eq drawn, hcut.partition_eq⟩

theorem Cut.recorded_of_error (hcut : Cut pick lt gt items engine chosen after split middle)
    {drawn bounds : List Nat}
    (hfirst : sortWith (Draw.recorded pick) lt gt (shorterSide split middle)
        (after, drawn ++ [items.size]) =
      (sortWith pick lt gt (shorterSide split middle) after).withBounds
        (drawn ++ [items.size] ++ bounds))
    (hended : (sortWith pick lt gt (shorterSide split middle) after).ended = .error reason) :
    sortWith (Draw.recorded pick) lt gt items (engine, drawn) =
      (sortWith pick lt gt items engine).withBounds (drawn ++ items.size :: bounds) := by
  rw [(hcut.recorded drawn).sortWith_of_error hfirst hended, hcut.sortWith_of_error rfl hended,
    List.append_cons drawn items.size bounds]
  rfl

theorem Cut.recorded_of_ok (hcut : Cut pick lt gt items engine chosen after split middle)
    {drawn bounds later : List Nat}
    (hfirst : sortWith (Draw.recorded pick) lt gt (shorterSide split middle)
        (after, drawn ++ [items.size]) =
      (sortWith pick lt gt (shorterSide split middle) after).withBounds
        (drawn ++ [items.size] ++ bounds))
    (hended : (sortWith pick lt gt (shorterSide split middle) after).ended = .ok ())
    (hsecond : sortWith (Draw.recorded pick) lt gt (longerSide split middle)
        ((sortWith pick lt gt (shorterSide split middle) after).engine,
          drawn ++ [items.size] ++ bounds) =
      (sortWith pick lt gt (longerSide split middle)
        (sortWith pick lt gt (shorterSide split middle) after).engine).withBounds
          (drawn ++ [items.size] ++ bounds ++ later)) :
    sortWith (Draw.recorded pick) lt gt items (engine, drawn) =
      (sortWith pick lt gt items engine).withBounds (drawn ++ items.size :: (bounds ++ later)) := by
  rw [(hcut.recorded drawn).sortWith_of_ok hfirst hended hsecond,
    hcut.sortWith_of_ok rfl hended rfl, List.append_cons drawn items.size (bounds ++ later),
    ← List.append_assoc]
  rfl

/-! ### The bounds that are drawn below -/

/-- However a sort ends, the bounds it has drawn below are within those of its items. -/
theorem exists_bounds_sortWith (pick : Nat → Draw σ Nat) (lt gt : α → α → Bool) (items : Array α)
    (engine : σ) (drawn : List Nat) :
    ∃ bounds, sortWith (Draw.recorded pick) lt gt items (engine, drawn) =
        (sortWith pick lt gt items engine).withBounds (drawn ++ bounds) ∧
      BoundsWithin items.size bounds := by
  induction items, engine using sortWith_induction pick lt gt generalizing drawn with
  | few items engine hsize =>
      refine ⟨[], ?_, boundsWithin_nil _⟩
      rw [sortWith_of_few hsize, sortWith_of_few hsize, List.append_nil]
      rfl
  | undrawn items engine reason after htwo hpick =>
      refine ⟨[items.size], ?_, boundsWithin_singleton htwo⟩
      rw [sortWith_of_undrawn htwo (Draw.recorded_eq hpick drawn), sortWith_of_undrawn htwo hpick]
      rfl
  | uncut items engine chosen after htwo hpick hpartition =>
      refine ⟨[items.size], ?_, boundsWithin_singleton htwo⟩
      rw [sortWith_of_uncut htwo (Draw.recorded_eq hpick drawn) hpartition,
        sortWith_of_uncut htwo hpick hpartition]
      rfl
  | halted items engine chosen after split middle reason hcut hended ih =>
      obtain ⟨bounds, hfirst, hbounds⟩ := ih (drawn ++ [items.size])
      refine ⟨items.size :: (bounds ++ []), ?_,
        hbounds.join (boundsWithin_nil 0) (size_shorterSide_lt split middle) hcut.two_le⟩
      rw [List.append_nil]
      exact hcut.recorded_of_error hfirst hended
  | looped items engine chosen after split middle hcut hended ihShorter ihLonger =>
      have hsum := size_shorterSide_add_size_longerSide split middle
      obtain ⟨bounds, hfirst, hbounds⟩ := ihShorter (drawn ++ [items.size])
      obtain ⟨later, hsecond, hlater⟩ := ihLonger (drawn ++ [items.size] ++ bounds)
      exact ⟨items.size :: (bounds ++ later), hcut.recorded_of_ok hfirst hended hsecond,
        hbounds.join hlater (by omega) hcut.two_le⟩

end Keystream
