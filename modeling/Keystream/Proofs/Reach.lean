import Keystream.Proofs.Draw.Uniform
import Keystream.Proofs.Shuffle.Uniform
import Keystream.Proofs.Sort.Sorted

/-!
# Values that draws can reach

A bound is refused only if it is zero, or if a word cannot count that far. An engine may give fewer
words than a word can hold, and so a bound can pass that is larger than the number of words. Up to
that number every value below the bound is taken for some word. Beyond it no word is far enough from
the first one to be reduced: each accepted word is taken for its own distance from the first word,
and values at least as large as the number of words are never reached. The threshold is then the
remainder of a difference that has wrapped, and it may be so large that no word is accepted at all.
-/

namespace Keystream

namespace Draw

variable {α : Type} {w : Nat} {lo hi bound : BitVec w}

/-- Some word from `lo` to `hi` is taken for the value. -/
def Reached (lo hi : BitVec w) (value? : BitVec w → Option α) (value : α) : Prop :=
  ∃ word ∈ wordsBetween lo hi, value? word = some value

def RejectsAll (lo hi : BitVec w) (value? : BitVec w → Option α) : Prop :=
  ∀ word ∈ wordsBetween lo hi, value? word = none

/-- The threshold for a bound larger than the number of words. -/
def wrappedThreshold (lo hi : BitVec w) (bound : Nat) : Nat :=
  (2 ^ w + wordCount lo hi) % bound

/-! ### Bounds up to the number of words -/

theorem reached_of_le (hrange : lo ≤ hi) (hbound : bound.toNat ≤ wordCount lo hi) {value : BitVec w}
    (hvalue : value < bound) : Reached lo hi (valueOf lo hi bound) value := by
  have hpos : 0 < bound.toNat := Nat.zero_lt_of_lt hvalue
  have hcard := card_valueOf_eq_some hrange hbound hvalue
  have hnonempty : 0 < wordCount lo hi / bound.toNat := Nat.div_pos hbound hpos
  rw [← hcard, Finset.card_pos] at hnonempty
  obtain ⟨word, hword⟩ := hnonempty
  exact ⟨word, Finset.mem_filter.1 hword⟩

/-! ### Bounds beyond the number of words -/

theorem toNat_threshold_of_lt (hrange : lo ≤ hi) (hbound : wordCount lo hi < bound.toNat) :
    (threshold lo hi bound).toNat = wrappedThreshold lo hi bound.toNat := by
  have hlt := bound.isLt
  have hcount : (hi - lo + 1).toNat = wordCount lo hi := by
    rw [toNat_range hrange]
    exact Nat.mod_eq_of_lt (Nat.lt_trans hbound hlt)
  have hwrapped : (hi - lo + 1 - bound).toNat = 2 ^ w + wordCount lo hi - bound.toNat := by
    rw [BitVec.toNat_sub, hcount, Nat.mod_eq_of_lt (by omega)]
    omega
  rw [threshold, BitVec.toNat_umod, hwrapped, wrappedThreshold]
  exact (Nat.mod_eq_sub_mod (by omega)).symm

theorem valueOf_eq_some_of_lt (hrange : lo ≤ hi) (hbound : wordCount lo hi < bound.toNat)
    {word value : BitVec w} (hword : word ∈ wordsBetween lo hi) :
    valueOf lo hi bound word = some value ↔
      wrappedThreshold lo hi bound.toNat ≤ value.toNat ∧ word - lo = value := by
  have hreduced : (word - lo) % bound = word - lo := by
    apply BitVec.eq_of_toNat_eq
    rw [BitVec.toNat_umod]
    exact Nat.mod_eq_of_lt (Nat.lt_trans (toNat_sub_lt_wordCount hword) hbound)
  rw [valueOf, reduce?, hreduced, Option.ite_none_right_eq_some, Option.some.injEq, BitVec.le_def,
    toNat_threshold_of_lt hrange hbound]
  refine and_congr_left ?_
  rintro rfl
  rfl

theorem reached_iff_of_lt (hrange : lo ≤ hi) (hbound : wordCount lo hi < bound.toNat)
    {value : BitVec w} :
    Reached lo hi (valueOf lo hi bound) value ↔
      wrappedThreshold lo hi bound.toNat ≤ value.toNat ∧ value.toNat < wordCount lo hi := by
  constructor
  · rintro ⟨word, hword, hvalue⟩
    obtain ⟨haccepted, rfl⟩ := (valueOf_eq_some_of_lt hrange hbound hword).1 hvalue
    exact ⟨haccepted, toNat_sub_lt_wordCount hword⟩
  · rintro ⟨haccepted, hlt⟩
    have hword := lo_add_mem_wordsBetween hrange hlt
    exact ⟨lo + value, hword, (valueOf_eq_some_of_lt hrange hbound hword).2
      ⟨haccepted, lo_add_sub_lo lo value⟩⟩

/-! ### All bounds -/

theorem rejectsAll_iff_not_reached {value? : BitVec w → Option α} :
    RejectsAll lo hi value? ↔ ∀ value, ¬Reached lo hi value? value := by
  constructor
  · rintro hnone value ⟨word, hword, hsome⟩
    rw [hnone word hword] at hsome
    cases hsome
  · intro hnone word hword
    refine Option.eq_none_iff_forall_ne_some.2 ?_
    intro value hsome
    exact hnone value ⟨word, hword, hsome⟩

theorem forall_reached_iff (hrange : lo ≤ hi) :
    (∀ value < bound, Reached lo hi (valueOf lo hi bound) value) ↔
      bound.toNat ≤ wordCount lo hi := by
  constructor
  · intro hreached
    by_contra hbeyond
    have hbound := Nat.lt_of_not_le hbeyond
    -- the number of words itself is a value below the bound, and too far from the first word
    have hfits : wordCount lo hi % 2 ^ w = wordCount lo hi :=
      Nat.mod_eq_of_lt (Nat.lt_trans hbound bound.isLt)
    have hvalue : BitVec.ofNat w (wordCount lo hi) < bound := by
      rw [BitVec.lt_def, BitVec.toNat_ofNat, hfits]
      exact hbound
    have hlt := ((reached_iff_of_lt hrange hbound).1 (hreached _ hvalue)).2
    rw [BitVec.toNat_ofNat, hfits] at hlt
    exact Nat.lt_irrefl _ hlt
  · intro hbound value hvalue
    exact reached_of_le hrange hbound hvalue

theorem rejectsAll_iff (hrange : lo ≤ hi) (hpos : 0 < bound.toNat) :
    RejectsAll lo hi (valueOf lo hi bound) ↔
      wordCount lo hi ≤ wrappedThreshold lo hi bound.toNat := by
  have hthreshold : wrappedThreshold lo hi bound.toNat < bound.toNat := Nat.mod_lt _ hpos
  rw [rejectsAll_iff_not_reached]
  rcases Nat.lt_or_ge (wordCount lo hi) bound.toNat with hbound | hbound
  · constructor
    · intro hnone
      by_contra hbelow
      have hlt := Nat.lt_of_not_le hbelow
      have hvalue : (BitVec.ofNat w (wrappedThreshold lo hi bound.toNat)).toNat =
          wrappedThreshold lo hi bound.toNat :=
        Nat.mod_eq_of_lt (Nat.lt_trans hthreshold bound.isLt)
      exact hnone _ ((reached_iff_of_lt hrange hbound).2
        ⟨Nat.le_of_eq hvalue.symm, hvalue.trans_lt hlt⟩)
    · intro hbeyond value hreached
      obtain ⟨haccepted, hlt⟩ := (reached_iff_of_lt hrange hbound).1 hreached
      omega
  · constructor
    · intro hnone
      exact absurd (reached_of_le hrange hbound hpos) (hnone 0)
    · intro hbeyond
      omega

/-! ### Positions -/

theorem reached_positionOf_iff {len position : Nat} (hposition : position < 2 ^ w) :
    Reached lo hi (positionOf lo hi len) position ↔
      Reached lo hi (valueOf lo hi (BitVec.ofNat w len)) (BitVec.ofNat w position) :=
  exists_congr fun _ => and_congr_right fun _ => positionOf_eq_some_iff hposition

theorem rejectsAll_positionOf_iff {len : Nat} :
    RejectsAll lo hi (positionOf lo hi len) ↔
      RejectsAll lo hi (valueOf lo hi (BitVec.ofNat w len)) :=
  forall₂_congr fun _ _ => Option.map_eq_none_iff

theorem forall_reached_positionOf_iff (hrange : lo ≤ hi) {len : Nat} (hfits : len < 2 ^ w) :
    (∀ position < len, Reached lo hi (positionOf lo hi len) position) ↔
      len ≤ wordCount lo hi := by
  have hlen : (BitVec.ofNat w len).toNat = len := Nat.mod_eq_of_lt hfits
  have hbounds : (∀ value < BitVec.ofNat w len,
      Reached lo hi (valueOf lo hi (BitVec.ofNat w len)) value) ↔ len ≤ wordCount lo hi := by
    rw [forall_reached_iff hrange, hlen]
  rw [← hbounds]
  constructor
  · intro hreached value hvalue
    rw [BitVec.lt_def, hlen] at hvalue
    have hposition := (reached_positionOf_iff value.isLt).1 (hreached value.toNat hvalue)
    rwa [BitVec.ofNat_toNat, BitVec.setWidth_eq] at hposition
  · intro hreached position hposition
    have hpositionFits := Nat.lt_trans hposition hfits
    refine (reached_positionOf_iff hpositionFits).2 (hreached _ ?_)
    rw [BitVec.lt_def, hlen]
    exact (Nat.mod_eq_of_lt hpositionFits).trans_lt hposition

/-! ### Draws that never end -/

section Engines

variable {σ : Type} [Engine σ w] {budget : Nat} {engine : σ}

def GivesBetween (σ : Type) [Engine σ w] : Prop :=
  ∀ engine : σ, (Engine.next engine).1 ∈ wordsBetween (Engine.lo σ) (Engine.hi σ)

theorem first_of_rejectsAll {value? : BitVec w → Option α} (hgives : GivesBetween σ)
    (hrejects : RejectsAll (Engine.lo σ) (Engine.hi σ) value?) :
    first value? budget engine = (.error .starved, Engine.after budget engine) :=
  first_eq_error.2 ⟨rfl, fun k _ => hrejects _ (hgives (Engine.after k engine)), rfl⟩

theorem below_of_rejectsAll (hgives : GivesBetween σ) (hbound : bound ≠ 0)
    (hrejects : RejectsAll (Engine.lo σ) (Engine.hi σ)
      (valueOf (Engine.lo σ) (Engine.hi σ) bound)) :
    below budget bound engine = (.error .starved, Engine.after budget engine) := by
  rw [below_eq hbound, first_of_rejectsAll hgives hrejects]

theorem index_of_rejectsAll (hgives : GivesBetween σ) {len : Nat} (hpos : 0 < len)
    (hfits : len < 2 ^ w)
    (hrejects : RejectsAll (Engine.lo σ) (Engine.hi σ)
      (positionOf (Engine.lo σ) (Engine.hi σ) len)) :
    index budget len engine = (.error .starved, Engine.after budget engine) := by
  rw [index, lengthWord_eq hfits]
  exact Stateful.bind_of_error (below_of_rejectsAll hgives (ofNat_ne_zero hpos hfits)
    (rejectsAll_positionOf_iff.1 hrejects))

end Engines

end Draw

/-! ### Rearrangements that never end -/

section Rearrangements

variable {α σ : Type} {w : Nat} [Engine σ w] {budget : Nat} {engine : σ} {items : Array α}

theorem shuffle_of_rejectsAll (hgives : Draw.GivesBetween σ) (htwo : 2 ≤ items.size)
    (hfits : items.size < 2 ^ w)
    (hrejects : Draw.RejectsAll (Engine.lo σ) (Engine.hi σ)
      (Draw.positionOf (Engine.lo σ) (Engine.hi σ) items.size)) :
    shuffle budget items engine = .stopped items (Engine.after budget engine) .starved := by
  obtain ⟨count, hcount⟩ := Nat.exists_eq_add_of_le' htwo
  have hindex : Draw.index budget items.size engine =
      (.error .starved, Engine.after budget engine) :=
    Draw.index_of_rejectsAll hgives (by omega) hfits hrejects
  rw [shuffle_eq_shuffleWith htwo hfits]
  rw [hcount] at hindex ⊢
  exact shuffleWith_of_error hindex

theorem sort_of_rejectsAll (lt gt : α → α → Bool) (hgives : Draw.GivesBetween σ)
    (htwo : 2 ≤ items.size) (hfits : items.size < 2 ^ w)
    (hrejects : Draw.RejectsAll (Engine.lo σ) (Engine.hi σ)
      (Draw.positionOf (Engine.lo σ) (Engine.hi σ) items.size)) :
    sort budget lt items engine gt = .stopped items (Engine.after budget engine) .starved := by
  have hindex : Draw.index budget items.size engine =
      (.error .starved, Engine.after budget engine) :=
    Draw.index_of_rejectsAll hgives (by omega) hfits hrejects
  rw [sort_eq_sortWith fun _ => hfits, sortWith_of_undrawn htwo hindex]

end Rearrangements

/-- **Draws reach every value exactly up to the number of words.** Beyond that only the values from
the wrapped threshold on are reached. If these are none, all words are rejected, and a draw, a
shuffle or a sort of so many items starves under every budget. -/
theorem reached_up_to_wordCount {σ : Type} {w : Nat} [Engine σ w]
    (hwords : Engine.lo σ ≤ Engine.hi σ) :
    let lo : BitVec w := Engine.lo σ
    let hi : BitVec w := Engine.hi σ
    let count := hi.toNat - lo.toNat + 1
    (∀ bound : BitVec w, 0 < bound.toNat →
      ((∀ value < bound, Draw.Reached lo hi (Draw.valueOf lo hi bound) value) ↔
        bound.toNat ≤ count) ∧
      (count < bound.toNat → ∀ value,
        Draw.Reached lo hi (Draw.valueOf lo hi bound) value ↔
          (2 ^ w + count) % bound.toNat ≤ value.toNat ∧ value.toNat < count) ∧
      (Draw.RejectsAll lo hi (Draw.valueOf lo hi bound) ↔
        count ≤ (2 ^ w + count) % bound.toNat)) ∧
    (∀ len, 0 < len → len < 2 ^ w →
      ((∀ position < len, Draw.Reached lo hi (Draw.positionOf lo hi len) position) ↔
        len ≤ count) ∧
      (Draw.RejectsAll lo hi (Draw.positionOf lo hi len) ↔ count ≤ (2 ^ w + count) % len)) ∧
    (Draw.GivesBetween σ → ∀ (budget : Nat) (engine : σ),
      (∀ bound : BitVec w, 0 < bound.toNat → Draw.RejectsAll lo hi (Draw.valueOf lo hi bound) →
        Draw.below budget bound engine = (.error .starved, Engine.after budget engine)) ∧
      ∀ len, 0 < len → len < 2 ^ w → Draw.RejectsAll lo hi (Draw.positionOf lo hi len) →
        Draw.index budget len engine = (.error .starved, Engine.after budget engine) ∧
        ∀ {α : Type} (lt gt : α → α → Bool) (items : Array α), items.size = len → 2 ≤ len →
          shuffle budget items engine = .stopped items (Engine.after budget engine) .starved ∧
            sort budget lt items engine gt =
              .stopped items (Engine.after budget engine) .starved) := by
  intro lo hi count
  refine ⟨?_, ?_, ?_⟩
  · intro bound hpos
    exact ⟨Draw.forall_reached_iff hwords, fun hbound _ => Draw.reached_iff_of_lt hwords hbound,
      Draw.rejectsAll_iff hwords hpos⟩
  · intro len hpos hfits
    have hlen : (BitVec.ofNat w len).toNat = len := Nat.mod_eq_of_lt hfits
    refine ⟨Draw.forall_reached_positionOf_iff hwords hfits, ?_⟩
    rw [Draw.rejectsAll_positionOf_iff, Draw.rejectsAll_iff hwords (hlen.symm ▸ hpos), hlen]
    rfl
  · intro hgives budget engine
    refine ⟨?_, ?_⟩
    · intro bound hpos hrejects
      exact Draw.below_of_rejectsAll hgives (Draw.ne_zero_of_toNat_pos hpos) hrejects
    · intro len hpos hfits hrejects
      refine ⟨Draw.index_of_rejectsAll hgives hpos hfits hrejects, ?_⟩
      rintro α lt gt items rfl htwo
      exact ⟨shuffle_of_rejectsAll hgives htwo hfits hrejects,
        sort_of_rejectsAll lt gt hgives htwo hfits hrejects⟩

/-! ### An engine with few words -/

/-- A dial with ten places gives the numbers from 10 to 19 in turn. -/
structure Dial where
  place : Nat

namespace Dial

instance : Engine Dial 8 where
  lo := 10
  hi := 19
  next dial := (BitVec.ofNat 8 (10 + dial.place % 10), ⟨dial.place + 1⟩)

theorem givesBetween : Draw.GivesBetween Dial := by
  intro dial
  have hplace : dial.place % 10 < 10 := Nat.mod_lt _ (by decide)
  have hword : (Engine.next dial).1.toNat = 10 + dial.place % 10 :=
    Nat.mod_eq_of_lt (by omega)
  have hhi : (Engine.hi Dial).toNat = 19 := rfl
  rw [Draw.mem_wordsBetween, BitVec.le_def, BitVec.le_def, hword, hhi]
  exact ⟨Nat.le_add_right 10 _, by omega⟩

end Dial

/-- Of the values below 11 a dial gives only those from 2 to 9, and no draw below 200 ends. -/
theorem reached_up_to_wordCount_dial :
    let lo : BitVec 8 := Engine.lo Dial
    let hi : BitVec 8 := Engine.hi Dial
    (∀ value < 10, Draw.Reached lo hi (Draw.valueOf lo hi 10) value) ∧
      (∀ value, Draw.Reached lo hi (Draw.valueOf lo hi 11) value ↔
        2 ≤ value.toNat ∧ value.toNat < 10) ∧
      (∀ (budget : Nat) (dial : Dial),
        Draw.below budget 200 dial = (.error .starved, Engine.after budget dial)) ∧
      ∀ (budget : Nat) (dial : Dial) (items : Array Nat), items.size = 200 →
        shuffle budget items dial = .stopped items (Engine.after budget dial) .starved := by
  intro lo hi
  obtain ⟨hbounds, hlengths, hends⟩ := reached_up_to_wordCount (σ := Dial) (by decide)
  refine ⟨(hbounds 10 (by decide)).1.2 (by decide), (hbounds 11 (by decide)).2.1 (by decide),
    ?_, ?_⟩
  · intro budget dial
    exact (hends Dial.givesBetween budget dial).1 200 (by decide)
      ((hbounds 200 (by decide)).2.2.2 (by decide))
  · intro budget dial items hsize
    have hrejects := (hlengths 200 (by decide) (by decide)).2.2 (by decide)
    obtain ⟨-, hitems⟩ :=
      (hends Dial.givesBetween budget dial).2 200 (by decide) (by decide) hrejects
    exact (hitems (fun x y => decide (x < y)) (fun x y => decide (x > y)) items hsize (by decide)).1

/-- No word of a dial is taken for 0 below 11, and none for anything below 200. -/
theorem not_reached_dial :
    let lo : BitVec 8 := Engine.lo Dial
    let hi : BitVec 8 := Engine.hi Dial
    lo ≤ hi ∧
      (∀ (budget : Nat) (dial after : Dial) (cause : Error),
        Draw.below budget 11 dial ≠ (.error (.refused cause), after) ∧
          Draw.below budget 200 dial ≠ (.error (.refused cause), after)) ∧
      ¬Draw.Reached lo hi (Draw.valueOf lo hi 11) 0 ∧
      Draw.RejectsAll lo hi (Draw.valueOf lo hi 200) := by
  intro lo hi
  have hrange : lo ≤ hi := by decide
  refine ⟨hrange, ?_, ?_, (Draw.rejectsAll_iff hrange (by decide)).2 (by decide)⟩
  · intro budget dial after cause
    refine ⟨fun hrefused => ?_, fun hrefused => ?_⟩
    · cases Draw.eq_starved_of_below (by decide) hrefused
    · cases Draw.eq_starved_of_below (by decide) hrefused
  · intro hreached
    have hthreshold := ((Draw.reached_iff_of_lt hrange (by decide)).1 hreached).1
    exact absurd hthreshold (by decide)

end Keystream
