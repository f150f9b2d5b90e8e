import Keystream.Arc4
import Keystream.Proofs.Shuffle.Uniform
import Keystream.Proofs.Sort.Draws
import Keystream.Proofs.Sort.Sorted

/-!
# Refusals

A request is refused before anything is done for it: no word has been taken from the engine then,
and no item has moved. A shuffle and a sort draw many positions after the first check, while items
move, and each of these draws could be refused on its own. None of them is, because all of their
bounds lie between 2 and the number of items, which a word can count once the check has passed.
-/

namespace Keystream

namespace Draw

open Stateful

variable {σ : Type} {w : Nat} [Engine σ w] {budget len : Nat} {engine after : σ} {cause : Error}

theorem refuse_eq {α : Type} {reason : Error} :
    (refuse reason : Draw σ α) engine = (.error (.refused cause), after) ↔
      after = engine ∧ cause = reason := by
  constructor
  · intro hrefused
    cases hrefused
    exact ⟨rfl, rfl⟩
  · rintro ⟨rfl, rfl⟩
    rfl

theorem below_eq_refused {bound : BitVec w} :
    below budget bound engine = (.error (.refused cause), after) ↔
      after = engine ∧ bound = 0 ∧ cause = .nothingToDraw := by
  by_cases hbound : bound = 0
  · rw [below, if_pos hbound, refuse_eq]
    exact and_congr_right fun _ => (and_iff_right hbound).symm
  · constructor
    · intro hbelow
      cases eq_starved_of_below hbound hbelow
    · rintro ⟨-, hzero, -⟩
      exact absurd hzero hbound

theorem index_eq_refused :
    index budget len engine = (.error (.refused cause), after) ↔
      after = engine ∧ (len = 0 ∧ cause = .nothingToDraw ∨
        2 ^ w ≤ len ∧ cause = .tooManyValues len w) := by
  rcases Nat.lt_or_ge len (2 ^ w) with hfits | hwide
  · have hzero : BitVec.ofNat w len = 0 ↔ len = 0 := by
      constructor
      · intro hzero
        by_contra hne
        exact ofNat_ne_zero (Nat.pos_of_ne_zero hne) hfits hzero
      · rintro rfl
        rfl
    rw [index, lengthWord_eq hfits, bind_pure_eq_error, below_eq_refused, hzero]
    refine and_congr_right fun _ => (or_iff_left ?_).symm
    rintro ⟨hwide, -⟩
    exact absurd hfits (Nat.not_lt.2 hwide)
  · have hne : len ≠ 0 := Nat.ne_of_gt (Nat.lt_of_lt_of_le (Nat.two_pow_pos w) hwide)
    rw [index, lengthWord_of_ge hwide, refuse_eq]
    refine and_congr_right fun _ => ?_
    rw [or_iff_right fun hzero => hne hzero.1, and_iff_right hwide]

theorem range_eq_refused {start stop : BitVec w} :
    range budget start stop engine = (.error (.refused cause), after) ↔
      after = engine ∧ stop ≤ start ∧ cause = .nothingToDraw := by
  by_cases hempty : stop ≤ start
  · rw [range, if_pos hempty, refuse_eq]
    exact and_congr_right fun _ => (and_iff_right hempty).symm
  · have hbound := sub_ne_zero_of_lt (BitVec.not_le.1 hempty)
    rw [range, if_neg hempty, bind_pure_eq_error, below_eq_refused]
    refine and_congr_right fun _ => ?_
    rw [iff_false_intro hbound, iff_false_intro hempty]

theorem index_ne_refused {size : Nat} (hfits : size < 2 ^ w) (htwo : 2 ≤ len) (hlen : len ≤ size) :
    index budget len engine ≠ (.error (.refused cause), after) := by
  intro hrefused
  rcases (index_eq_refused.1 hrefused).2 with ⟨hzero, -⟩ | ⟨hwide, -⟩
  · omega
  · omega

end Draw

/-! ### Rearrangements -/

variable {α σ : Type} {w budget : Nat} {items : Array α} {engine : σ} {run : Arrangement α σ}

/-- A run is refused only where a word cannot count its items, and has then done nothing. -/
structure RefusedFirst (w : Nat) (items : Array α) (engine : σ) (run : Arrangement α σ) : Prop where
  refused_iff : ∀ cause, run.ended = .error (.refused cause) ↔
    2 ≤ items.size ∧ 2 ^ w ≤ items.size ∧ cause = .tooManyValues items.size w
  untouched : ∀ cause, run.ended = .error (.refused cause) →
    run = .stopped items engine (.refused cause)
  few : items.size < 2 → run = .finished items engine

theorem refusedFirst_of (hfew : items.size < 2 → run = .finished items engine)
    (hmany : 2 ≤ items.size → 2 ^ w ≤ items.size →
      run = .stopped items engine (.refused (.tooManyValues items.size w)))
    (hfits : 2 ≤ items.size → items.size < 2 ^ w → ∀ cause, run.ended ≠ .error (.refused cause)) :
    RefusedFirst w items engine run := by
  have hcases : ∀ cause, run.ended = .error (.refused cause) →
      2 ≤ items.size ∧ 2 ^ w ≤ items.size ∧ cause = .tooManyValues items.size w := by
    intro cause hended
    rcases Nat.lt_or_ge items.size 2 with hsize | htwo
    · rw [hfew hsize] at hended
      cases hended
    rcases Nat.lt_or_ge items.size (2 ^ w) with hsize | hwide
    · exact absurd hended (hfits htwo hsize cause)
    · rw [hmany htwo hwide] at hended
      cases hended
      exact ⟨htwo, hwide, rfl⟩
  refine ⟨fun cause => ⟨hcases cause, ?_⟩, ?_, hfew⟩
  · rintro ⟨htwo, hwide, rfl⟩
    rw [hmany htwo hwide]
    rfl
  · intro cause hended
    obtain ⟨htwo, hwide, rfl⟩ := hcases cause hended
    exact hmany htwo hwide

section Engines

variable [Engine σ w]

theorem refusedFirst_shuffle (budget : Nat) (items : Array α) (engine : σ) :
    RefusedFirst w items engine (shuffle budget items engine) := by
  refine refusedFirst_of ?_ ?_ ?_
  · intro hsize
    rw [shuffle, if_pos hsize]
  · intro htwo hwide
    rw [shuffle, if_neg (Nat.not_lt.2 htwo), Draw.lengthWord_of_ge hwide]
  · intro htwo hfits cause hended
    rw [shuffle_eq_shuffleWith htwo hfits] at hended
    obtain ⟨len, start, htwo', hlen, hindex⟩ :=
      drawEnds_of_shuffleWith (picksAmong_index hfits) (Nat.le_refl _) hended
    exact Draw.index_ne_refused hfits htwo' hlen hindex

theorem refusedFirst_sort (budget : Nat) (lt gt : α → α → Bool) (items : Array α) (engine : σ) :
    RefusedFirst w items engine (sort budget lt items engine gt) := by
  refine refusedFirst_of ?_ ?_ ?_
  · intro hsize
    rw [sort, if_pos hsize]
  · intro htwo hwide
    rw [sort, if_neg (Nat.not_lt.2 htwo), Draw.lengthWord_of_ge hwide]
  · intro htwo hfits cause hended
    rw [sort_eq_sortWith fun _ => hfits] at hended
    rcases fails_of_sortWith hended with ⟨hoverrun, -⟩ | ⟨len, start, hmakes, hindex⟩
    · cases hoverrun
    · exact Draw.index_ne_refused hfits hmakes.between.1 hmakes.between.2 hindex

/-- No engine refuses a draw below any of the bounds that the run has recorded. -/
def DrawsPass (budget size : Nat) (run : Arrangement α σ)
    (recorded : Arrangement α (σ × List Nat)) : Prop :=
  ∃ bounds, recorded = run.withBounds bounds ∧ ∀ bound ∈ bounds, 2 ≤ bound ∧ bound ≤ size ∧
    ∀ (start after : σ) (cause : Error),
      Draw.index budget bound start ≠ (.error (.refused cause), after)

theorem drawsPass_of {size : Nat} {recorded : Arrangement α (σ × List Nat)} (hfits : size < 2 ^ w)
    (hbounds : ∃ bounds, recorded = run.withBounds ([] ++ bounds) ∧ BoundsWithin size bounds) :
    DrawsPass budget size run recorded := by
  obtain ⟨bounds, hrecorded, hwithin⟩ := hbounds
  refine ⟨bounds, hrecorded, ?_⟩
  intro bound hmem
  obtain ⟨htwo, hle⟩ := hwithin.between bound hmem
  exact ⟨htwo, hle, fun start after cause => Draw.index_ne_refused hfits htwo hle⟩

/-- **Refusals come first.** A draw is refused exactly for no values or too many to be counted, a
shuffle or a sort exactly for too many items, and nothing has then been drawn or moved. No later
draw is refused, wherever the positions fall. -/
theorem refused_up_front {σ : Type} {w : Nat} [Engine σ w] (budget : Nat) (engine : σ) :
    (∀ len cause after, Draw.index budget len engine = (.error (.refused cause), after) ↔
      after = engine ∧ (len = 0 ∧ cause = .nothingToDraw ∨
        2 ^ w ≤ len ∧ cause = .tooManyValues len w)) ∧
    (∀ (start stop : BitVec w) cause after,
      Draw.range budget start stop engine = (.error (.refused cause), after) ↔
        after = engine ∧ stop ≤ start ∧ cause = .nothingToDraw) ∧
    ∀ {α : Type} (lt gt : α → α → Bool) (items : Array α),
      RefusedFirst w items engine (shuffle budget items engine) ∧
      RefusedFirst w items engine (sort budget lt items engine gt) ∧
      (items.size < 2 ^ w →
        DrawsPass budget items.size (shuffleWith (Draw.index budget) items.size items engine)
          (shuffleWith (Draw.recorded (Draw.index budget)) items.size items (engine, [])) ∧
        DrawsPass budget items.size (sortWith (Draw.index budget) lt gt items engine)
          (sortWith (Draw.recorded (Draw.index budget)) lt gt items (engine, []))) := by
  refine ⟨fun len cause after => Draw.index_eq_refused, fun start stop cause after =>
    Draw.range_eq_refused, ?_⟩
  intro α lt gt items
  refine ⟨refusedFirst_shuffle budget items engine, refusedFirst_sort budget lt gt items engine, ?_⟩
  intro hfits
  exact ⟨drawsPass_of hfits (exists_bounds_shuffleWith _ _ _ _ _),
    drawsPass_of hfits (exists_bounds_sortWith _ _ _ _ _ _)⟩

/-- An engine with words of 8 bits and 300 items, and the draws for three items. -/
theorem refused_up_front_bytes :
    let engine : Arc4 ⟨8, 8, 8, by decide, by decide, by decide⟩ := Arc4.initial
    let lt : Nat → Nat → Bool := fun x y => decide (x < y)
    let gt : Nat → Nat → Bool := fun x y => decide (x > y)
    Draw.index 5 0 engine = (.error (.refused .nothingToDraw), engine) ∧
      Draw.index 5 300 engine = (.error (.refused (.tooManyValues 300 8)), engine) ∧
      Draw.range 5 9 9 engine = (.error (.refused .nothingToDraw), engine) ∧
      shuffle 5 (Array.range 300) engine =
        .stopped (Array.range 300) engine (.refused (.tooManyValues 300 8)) ∧
      sort 5 lt (Array.range 300) engine gt =
        .stopped (Array.range 300) engine (.refused (.tooManyValues 300 8)) ∧
      DrawsPass 5 3 (shuffleWith (Draw.index 5) 3 #[2, 0, 1] engine)
        (shuffleWith (Draw.recorded (Draw.index 5)) 3 #[2, 0, 1] (engine, [])) ∧
      DrawsPass 5 3 (sortWith (Draw.index 5) lt gt #[2, 0, 1] engine)
        (sortWith (Draw.recorded (Draw.index 5)) lt gt #[2, 0, 1] (engine, [])) := by
  intro engine lt gt
  obtain ⟨hindex, hrange, hitems⟩ := refused_up_front 5 engine
  obtain ⟨hshuffle, hsort, -⟩ := hitems lt gt (Array.range 300)
  obtain ⟨-, -, hpass⟩ := hitems lt gt #[2, 0, 1]
  have hwide : 2 ≤ (Array.range 300).size ∧ 2 ^ 8 ≤ (Array.range 300).size ∧
      Error.tooManyValues 300 8 = .tooManyValues (Array.range 300).size 8 := by
    rw [Array.size_range]
    decide
  exact ⟨(hindex _ _ _).2 ⟨rfl, .inl ⟨rfl, rfl⟩⟩, (hindex _ _ _).2 ⟨rfl, .inr (by decide)⟩,
    (hrange _ _ _ _).2 ⟨rfl, by decide, rfl⟩,
    hshuffle.untouched _ ((hshuffle.refused_iff _).2 hwide),
    hsort.untouched _ ((hsort.refused_iff _).2 hwide), hpass (by decide)⟩

end Engines

end Keystream
