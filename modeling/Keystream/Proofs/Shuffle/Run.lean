import Keystream.Proofs.Draw.Picks
import Keystream.Proofs.Shuffle.Exchange

/-!
# Runs of a shuffle

A shuffle that finishes has drawn one position for each bound from the number of items down to 2, in
this order and nothing else, and has made the exchanges that these positions ask for. The other way
round it finishes as soon as all these draws give positions. However it ends, the items are
permuted.
-/

namespace Keystream

variable {α σ : Type} {pick : Nat → Draw σ Nat} {items : Array α}

theorem perm_shuffleWith (pick : Nat → Draw σ Nat) (bound : Nat) (items : Array α) (engine : σ) :
    (shuffleWith pick bound items engine).items.toList.Perm items.toList := by
  fun_induction shuffleWith pick bound items engine with
  | case1 | case2 | case3 | case5 => exact .refl _
  | case4 bound items engine chosen after hpick h ih =>
      exact ih.trans (Array.swap_perm h.1 h.2).toList

/-- A draw below each bound up to `bound`, where `engines k` is in front of the draw below `k`. -/
def Drawn (pick : Nat → Draw σ Nat) (choice : Nat → Nat) (engines : Nat → σ) (bound : Nat) : Prop :=
  ∀ k, 2 ≤ k → k ≤ bound → pick k (engines k) = (.ok (choice k), engines (k - 1))

theorem Drawn.chosenBelow {choice : Nat → Nat} {engines : Nat → σ} {bound : Nat}
    (hdrawn : Drawn pick choice engines bound) (hpicks : PicksAmong pick bound) :
    ChosenBelow choice bound :=
  fun k htwo hk => hpicks k htwo hk _ _ _ (hdrawn k htwo hk)

theorem Drawn.update {choice : Nat → Nat} {engines : Nat → σ} {bound chosen : Nat} {engine : σ}
    (hdrawn : Drawn pick choice engines bound)
    (hpick : pick (bound + 1) engine = (.ok chosen, engines bound)) :
    Drawn pick (Function.update choice (bound + 1) chosen)
      (Function.update engines (bound + 1) engine) (bound + 1) := by
  intro k htwo hk
  rcases Nat.lt_or_eq_of_le hk with hlt | rfl
  · rw [Function.update_of_ne (by omega), Function.update_of_ne (by omega),
      Function.update_of_ne (by omega)]
    exact hdrawn k htwo (by omega)
  · rw [Function.update_self, Function.update_self, Function.update_of_ne (by omega)]
    exact hpick

theorem shuffleWith_of_error {bound : Nat} {engine after : σ} {reason : Stop}
    (hpick : pick (bound + 2) engine = (.error reason, after)) :
    shuffleWith pick (bound + 2) items engine = .stopped items after reason := by
  rw [shuffleWith, hpick]

theorem shuffleWith_of_ok {bound chosen : Nat} {engine after : σ}
    (hbound : bound + 2 ≤ items.size) (hchosen : chosen < bound + 2)
    (hpick : pick (bound + 2) engine = (.ok chosen, after)) :
    shuffleWith pick (bound + 2) items engine =
      shuffleWith pick (bound + 1) (items.swapIfInBounds chosen (bound + 1)) after := by
  have hi : chosen < items.size := by omega
  have hj : bound + 1 < items.size := by omega
  rw [shuffleWith, hpick, Array.swapIfInBounds_def, dif_pos hi, dif_pos hj]
  exact dif_pos ⟨hi, hj⟩

theorem shuffleWith_of_drawn {choice : Nat → Nat} {engines : Nat → σ} {last : Nat}
    (hpicks : PicksAmong pick (last + 1)) (hbound : last + 1 ≤ items.size)
    (hdrawn : Drawn pick choice engines (last + 1)) :
    shuffleWith pick (last + 1) items (engines (last + 1)) =
      .finished (exchanged choice (last + 1) items) (engines 1) := by
  induction last generalizing items with
  | zero => rfl
  | succ last ih =>
      have hchosen := hdrawn.chosenBelow hpicks (last + 2) (by omega) (Nat.le_refl _)
      rw [shuffleWith_of_ok hbound hchosen (hdrawn (last + 2) (by omega) (Nat.le_refl _)),
        exchanged]
      exact ih (hpicks.mono (Nat.le_succ _)) (le_size_swapIfInBounds hbound _ _)
        fun k htwo hk => hdrawn k htwo (Nat.le_succ_of_le hk)

theorem exists_drawn_of_shuffleWith {result : Array α} {engine after : σ} {last : Nat}
    (hpicks : PicksAmong pick (last + 1)) (hbound : last + 1 ≤ items.size)
    (hrun : shuffleWith pick (last + 1) items engine = .finished result after) :
    ∃ choice engines, engines (last + 1) = engine ∧ engines 1 = after ∧
      Drawn pick choice engines (last + 1) ∧ exchanged choice (last + 1) items = result := by
  induction last generalizing items engine with
  | zero =>
      obtain ⟨rfl, rfl⟩ : items = result ∧ engine = after := by
        cases hrun
        exact ⟨rfl, rfl⟩
      exact ⟨fun _ => 0, fun _ => engine, rfl, rfl, fun k htwo hk => by omega, rfl⟩
  | succ last ih =>
      rcases hpick : pick (last + 2) engine with ⟨reason | chosen, between⟩
      · rw [shuffleWith_of_error hpick] at hrun
        cases hrun
      · have hchosen := hpicks _ (by omega) (Nat.le_refl _) _ _ _ hpick
        rw [shuffleWith_of_ok hbound hchosen hpick] at hrun
        obtain ⟨choice, engines, hbetween, hafter, hdrawn, hresult⟩ :=
          ih (hpicks.mono (Nat.le_succ _)) (le_size_swapIfInBounds hbound _ _) hrun
        rw [← hbetween] at hpick
        refine ⟨Function.update choice (last + 2) chosen,
          Function.update engines (last + 2) engine, Function.update_self _ _ _, ?_,
          hdrawn.update hpick, ?_⟩
        · rw [Function.update_of_ne (by omega)]
          exact hafter
        · rw [exchanged_update]
          exact hresult

/-- A shuffle finishes exactly when every draw gives a position. -/
theorem shuffleWith_eq_finished {result : Array α} {engine after : σ} {bound : Nat}
    (hpos : 0 < bound) (hpicks : PicksAmong pick bound) (hbound : bound ≤ items.size) :
    shuffleWith pick bound items engine = .finished result after ↔
      ∃ choice engines, engines bound = engine ∧ engines 1 = after ∧
        Drawn pick choice engines bound ∧ exchanged choice bound items = result := by
  obtain ⟨last, rfl⟩ := Nat.exists_eq_add_of_lt hpos
  rw [Nat.zero_add] at *
  constructor
  · exact exists_drawn_of_shuffleWith hpicks hbound
  · rintro ⟨choice, engines, rfl, rfl, hdrawn, rfl⟩
    exact shuffleWith_of_drawn hpicks hbound hdrawn

/-! ### A run ends early only where a draw does -/

theorem drawEnds_of_shuffleWith {count : Nat} {engine : σ} {reason : Stop}
    (hpicks : PicksAmong pick count) (hcount : count ≤ items.size)
    (hended : (shuffleWith pick count items engine).ended = .error reason) :
    DrawEnds pick count reason (shuffleWith pick count items engine).engine := by
  fun_induction shuffleWith pick count items engine with
  | case1 | case2 => cases hended
  | case3 count items engine found after hpick =>
      cases hended
      exact ⟨count + 2, engine, Nat.le_add_left 2 count, Nat.le_refl _, hpick⟩
  | case4 count items engine chosen after hpick h ih =>
      have hfits : count + 1 ≤ (items.swap chosen (count + 1) h.1 h.2).size := by
        rw [Array.size_swap]
        exact Nat.le_of_succ_le hcount
      exact (ih (hpicks.mono (Nat.le_succ _)) hfits hended).mono (Nat.le_succ _)
  | case5 count items engine chosen after hpick h =>
      have hchosen := hpicks _ (Nat.le_add_left 2 count) (Nat.le_refl _) _ _ _ hpick
      exact absurd ⟨Nat.lt_of_lt_of_le hchosen hcount, hcount⟩ h

/-! ### The bounds that are drawn below -/

/-- However a shuffle ends, the bounds it has drawn below are within those of its items. -/
theorem exists_bounds_shuffleWith (pick : Nat → Draw σ Nat) (count : Nat) (items : Array α)
    (engine : σ) (drawn : List Nat) :
    ∃ bounds, shuffleWith (Draw.recorded pick) count items (engine, drawn) =
        (shuffleWith pick count items engine).withBounds (drawn ++ bounds) ∧
      BoundsWithin count bounds := by
  fun_induction shuffleWith pick count items engine generalizing drawn with
  | case1 items engine =>
      refine ⟨[], ?_, boundsWithin_nil _⟩
      rw [List.append_nil]
      rfl
  | case2 items engine =>
      refine ⟨[], ?_, boundsWithin_nil _⟩
      rw [List.append_nil]
      rfl
  | case3 count items engine reason after hpick =>
      refine ⟨[count + 2], ?_, boundsWithin_singleton (Nat.le_add_left 2 count)⟩
      rw [shuffleWith, Draw.recorded_eq hpick]
      rfl
  | case4 count items engine chosen after hpick h ih =>
      obtain ⟨bounds, hrun, hbounds⟩ := ih (drawn ++ [count + 2])
      refine ⟨(count + 2) :: (bounds ++ []), ?_, hbounds.join (boundsWithin_nil 0)
        (Nat.lt_succ_self _) (Nat.le_add_left 2 count)⟩
      rw [shuffleWith, Draw.recorded_eq hpick, List.append_nil,
        List.append_cons drawn (count + 2) bounds]
      exact (dif_pos h).trans hrun
  | case5 count items engine chosen after hpick h =>
      refine ⟨[count + 2], ?_, boundsWithin_singleton (Nat.le_add_left 2 count)⟩
      rw [shuffleWith, Draw.recorded_eq hpick]
      exact dif_neg h

theorem shuffleWith_recorded_of_drawn {choice : Nat → Nat} {engines : Nat → σ} {last : Nat}
    (hpicks : PicksAmong pick (last + 1)) (hbound : last + 1 ≤ items.size)
    (hdrawn : Drawn pick choice engines (last + 1)) (bounds : List Nat) :
    shuffleWith (Draw.recorded pick) (last + 1) items (engines (last + 1), bounds) =
      .finished (exchanged choice (last + 1) items)
        (engines 1, bounds ++ (List.range' 2 last).reverse) := by
  induction last generalizing items bounds with
  | zero =>
      rw [List.range'_zero, List.reverse_nil, List.append_nil]
      rfl
  | succ last ih =>
      have hpick := hdrawn (last + 2) (by omega) (Nat.le_refl _)
      have hchosen := hdrawn.chosenBelow hpicks (last + 2) (by omega) (Nat.le_refl _)
      rw [shuffleWith_of_ok hbound hchosen (Draw.recorded_eq hpick bounds), exchanged,
        List.range'_concat,
        List.reverse_concat, Nat.one_mul, Nat.add_comm 2,
        List.append_cons bounds (last + 2) (List.range' 2 last).reverse]
      exact ih (hpicks.mono (Nat.le_succ _)) (le_size_swapIfInBounds hbound _ _)
        (fun k htwo hk => hdrawn k htwo (Nat.le_succ_of_le hk)) (bounds ++ [last + 2])

theorem shuffleWith_recorded {result : Array α} {engine after : σ} {bound : Nat} (hpos : 0 < bound)
    (hpicks : PicksAmong pick bound) (hbound : bound ≤ items.size)
    (hrun : shuffleWith pick bound items engine = .finished result after) :
    shuffleWith (Draw.recorded pick) bound items (engine, []) =
      .finished result (after, (List.range' 2 (bound - 1)).reverse) := by
  obtain ⟨choice, engines, rfl, rfl, hdrawn, rfl⟩ :=
    (shuffleWith_eq_finished hpos hpicks hbound).1 hrun
  obtain ⟨last, rfl⟩ := Nat.exists_eq_add_of_lt hpos
  rw [Nat.zero_add] at *
  exact shuffleWith_recorded_of_drawn hpicks hbound hdrawn []

end Keystream
