import Keystream.Proofs.Draw.First
import Keystream.SplitMix
import Mathlib.Data.FinEnum
import Mathlib.Data.Int.CardIntervalMod
import Mathlib.Data.Nat.Periodic

/-!
# Draws are uniform

Of the words from the smallest to the largest that an engine gives, the lowest ones are rejected and
the others are cut into runs of as many words as the bound. Each value is the remainder of one word
of each run, so that all values are taken for equally many words. The arithmetic of the code is that
of words; the first section reads it as arithmetic of numbers, also where the number of words wraps
to zero.
-/

namespace Keystream.Draw

open Finset

variable {w : Nat} {lo hi bound : BitVec w}

def wordCount (lo hi : BitVec w) : Nat :=
  hi.toNat - lo.toNat + 1

def wordsBetween (lo hi : BitVec w) : Finset (BitVec w) :=
  univ.filter fun word => lo ≤ word ∧ word ≤ hi

/-! ### Offsets and the threshold as numbers -/

theorem wordCount_le (lo hi : BitVec w) : wordCount lo hi ≤ 2 ^ w := by
  have hlt := hi.isLt
  unfold wordCount
  omega

theorem ne_zero_of_toNat_pos (hpos : 0 < bound.toNat) : bound ≠ 0 := by
  rintro rfl
  simp at hpos

theorem toNat_sub_lo {word : BitVec w} (hword : lo ≤ word) :
    (word - lo).toNat = word.toNat - lo.toNat :=
  BitVec.toNat_sub_of_le hword

theorem toNat_range (hrange : lo ≤ hi) : (hi - lo + 1).toNat = wordCount lo hi % 2 ^ w := by
  rw [BitVec.toNat_add, toNat_sub_lo hrange]
  change (hi.toNat - lo.toNat + 1 % 2 ^ w) % 2 ^ w = _
  rw [Nat.add_mod_mod, wordCount]

/-- Subtracting the bound makes up for a number of words that wraps to zero. -/
theorem toNat_range_sub_bound (hrange : lo ≤ hi) (hpos : 0 < bound.toNat)
    (hbound : bound.toNat ≤ wordCount lo hi) :
    (hi - lo + 1 - bound).toNat = wordCount lo hi - bound.toNat := by
  have hle := wordCount_le lo hi
  have hlt := bound.isLt
  rw [BitVec.toNat_sub, toNat_range hrange]
  rcases Nat.lt_or_eq_of_le hle with hfits | hwraps
  · have hsum : 2 ^ w - bound.toNat + wordCount lo hi =
        wordCount lo hi - bound.toNat + 2 ^ w := by omega
    rw [Nat.mod_eq_of_lt hfits, hsum, Nat.add_mod_right]
    exact Nat.mod_eq_of_lt (by omega)
  · rw [hwraps, Nat.mod_self, Nat.add_zero]
    exact Nat.mod_eq_of_lt (by omega)

theorem toNat_threshold (hrange : lo ≤ hi) (hpos : 0 < bound.toNat)
    (hbound : bound.toNat ≤ wordCount lo hi) :
    (threshold lo hi bound).toNat = wordCount lo hi % bound.toNat := by
  rw [threshold, BitVec.toNat_umod, toNat_range_sub_bound hrange hpos hbound]
  exact (Nat.mod_eq_sub_mod hbound).symm

theorem valueOf_eq_some (hrange : lo ≤ hi) (hpos : 0 < bound.toNat)
    (hbound : bound.toNat ≤ wordCount lo hi) {word value : BitVec w} :
    valueOf lo hi bound word = some value ↔
      wordCount lo hi % bound.toNat ≤ (word - lo).toNat ∧
        (word - lo).toNat % bound.toNat = value.toNat := by
  rw [valueOf, reduce?]
  simp only [BitVec.le_def, toNat_threshold hrange hpos hbound]
  split
  · rename_i haccepted
    rw [Option.some.injEq, ← BitVec.toNat_inj, BitVec.toNat_umod]
    exact ⟨fun hvalue => ⟨haccepted, hvalue⟩, fun hvalue => hvalue.2⟩
  · rename_i hrejected
    constructor
    · intro hvalue
      cases hvalue
    · intro hvalue
      exact absurd hvalue.1 hrejected

theorem valueOf_eq_none (hrange : lo ≤ hi) (hpos : 0 < bound.toNat)
    (hbound : bound.toNat ≤ wordCount lo hi) {word : BitVec w} :
    valueOf lo hi bound word = none ↔ (word - lo).toNat < wordCount lo hi % bound.toNat := by
  rw [valueOf, reduce?]
  simp only [BitVec.le_def, toNat_threshold hrange hpos hbound]
  split
  · rename_i haccepted
    constructor
    · intro hvalue
      cases hvalue
    · intro hlt
      exact absurd haccepted (Nat.not_le_of_lt hlt)
  · rename_i hrejected
    exact ⟨fun _ => Nat.lt_of_not_le hrejected, fun _ => rfl⟩

/-! ### Words and their distances from the first one -/

theorem mem_wordsBetween {word : BitVec w} : word ∈ wordsBetween lo hi ↔ lo ≤ word ∧ word ≤ hi := by
  rw [wordsBetween, mem_filter]
  exact and_iff_right (mem_univ word)

theorem toNat_sub_lt_wordCount {word : BitVec w} (hword : word ∈ wordsBetween lo hi) :
    (word - lo).toNat < wordCount lo hi := by
  obtain ⟨hlo, hhi⟩ := mem_wordsBetween.1 hword
  have hle : word.toNat ≤ hi.toNat := hhi
  rw [toNat_sub_lo hlo, wordCount]
  omega

theorem lo_add_sub_lo (lo distance : BitVec w) : lo + distance - lo = distance := by
  rw [BitVec.add_comm, BitVec.add_sub_cancel]

theorem lo_add_mem_wordsBetween (hrange : lo ≤ hi) {distance : BitVec w}
    (hdistance : distance.toNat < wordCount lo hi) : lo + distance ∈ wordsBetween lo hi := by
  have hlohi : lo.toNat ≤ hi.toNat := hrange
  have hlt := hi.isLt
  rw [wordCount] at hdistance
  have hword : (lo + distance).toNat = lo.toNat + distance.toNat := by
    rw [BitVec.toNat_add]
    exact Nat.mod_eq_of_lt (by omega)
  rw [mem_wordsBetween, BitVec.le_def, BitVec.le_def, hword]
  omega

/-! ### Counting -/

theorem card_filter_wordsBetween (hrange : lo ≤ hi) (p : Nat → Prop) [DecidablePred p] :
    #{word ∈ wordsBetween lo hi | p (word - lo).toNat} =
      #{offset ∈ Finset.range (wordCount lo hi) | p offset} := by
  have hfits : ∀ offset < wordCount lo hi, (BitVec.ofNat w offset).toNat = offset := by
    intro offset hoffset
    exact Nat.mod_eq_of_lt (Nat.lt_of_lt_of_le hoffset (wordCount_le lo hi))
  apply card_nbij' (fun word => (word - lo).toNat) (fun offset => lo + BitVec.ofNat w offset)
  · intro word hmem
    obtain ⟨hword, hp⟩ := mem_filter.1 hmem
    exact mem_filter.2 ⟨Finset.mem_range.2 (toNat_sub_lt_wordCount hword), hp⟩
  · intro offset hmem
    obtain ⟨hoffset, hp⟩ := mem_filter.1 hmem
    have hdistance := hfits offset (Finset.mem_range.1 hoffset)
    refine mem_filter.2 ⟨lo_add_mem_wordsBetween hrange ?_, ?_⟩
    · rw [hdistance]
      exact Finset.mem_range.1 hoffset
    · rw [lo_add_sub_lo, hdistance]
      exact hp
  · intro word _
    change lo + BitVec.ofNat w (word - lo).toNat = word
    rw [BitVec.ofNat_toNat, BitVec.setWidth_eq, BitVec.add_comm, BitVec.sub_add_cancel]
  · intro offset hmem
    obtain ⟨hoffset, -⟩ := mem_filter.1 hmem
    change (lo + BitVec.ofNat w offset - lo).toNat = offset
    rw [lo_add_sub_lo, hfits offset (Finset.mem_range.1 hoffset)]

/-- Without the lowest `count % b` of them, the numbers below `count` have each remainder equally
often. -/
theorem card_filter_mod_eq (count : Nat) {b v : Nat} (hv : v < b) :
    #{r ∈ Finset.range count | count % b ≤ r ∧ r % b = v} = count / b := by
  have hb : 0 < b := Nat.zero_lt_of_lt hv
  have hsplit : {r ∈ Finset.range count | count % b ≤ r ∧ r % b = v} =
      {r ∈ Ico (count % b) (count % b + b * (count / b)) | r ≡ v [MOD b]} := by
    ext r
    simp only [mem_filter, Finset.mem_range, mem_Ico, Nat.mod_add_div, Nat.ModEq,
      Nat.mod_eq_of_lt hv]
    constructor
    · rintro ⟨hlt, hle, hmod⟩
      exact ⟨⟨hle, hlt⟩, hmod⟩
    · rintro ⟨⟨hle, hlt⟩, hmod⟩
      exact ⟨hlt, hle, hmod⟩
  have hperiodic : Function.Periodic (fun r => r ≡ v [MOD b]) (b * (count / b)) := by
    intro r
    simp only [Nat.ModEq, Nat.add_mul_mod_self_left]
  rw [hsplit, Nat.filter_Ico_card_eq_of_periodic _ _ _ hperiodic, Nat.count_modEq_card _ hb,
    Nat.mul_mod_right, if_neg (Nat.not_lt_zero _), Nat.mul_div_cancel_left _ hb, Nat.add_zero]

theorem card_filter_lt_mod (count b : Nat) :
    #{r ∈ Finset.range count | r < count % b} = count % b := by
  have hrange : {r ∈ Finset.range count | r < count % b} = Finset.range (count % b) := by
    ext r
    simp only [mem_filter, Finset.mem_range]
    have hle := Nat.mod_le count b
    omega
  rw [hrange, Finset.card_range]

theorem card_valueOf_eq_some (hrange : lo ≤ hi) (hbound : bound.toNat ≤ wordCount lo hi)
    {value : BitVec w} (hvalue : value < bound) :
    #{word ∈ wordsBetween lo hi | valueOf lo hi bound word = some value} =
      wordCount lo hi / bound.toNat := by
  have hlt : value.toNat < bound.toNat := hvalue
  have hpos : 0 < bound.toNat := Nat.zero_lt_of_lt hlt
  simp only [valueOf_eq_some hrange hpos hbound]
  rw [card_filter_wordsBetween hrange fun offset =>
    wordCount lo hi % bound.toNat ≤ offset ∧ offset % bound.toNat = value.toNat]
  exact card_filter_mod_eq (wordCount lo hi) hlt

theorem card_valueOf_eq_none (hrange : lo ≤ hi) (hpos : 0 < bound.toNat)
    (hbound : bound.toNat ≤ wordCount lo hi) :
    #{word ∈ wordsBetween lo hi | valueOf lo hi bound word = none} =
      wordCount lo hi % bound.toNat := by
  simp only [valueOf_eq_none hrange hpos hbound]
  rw [card_filter_wordsBetween hrange fun offset => offset < wordCount lo hi % bound.toNat]
  exact card_filter_lt_mod (wordCount lo hi) bound.toNat

theorem two_mul_mod_lt {count b : Nat} (hb : 0 < b) (hle : b ≤ count) :
    2 * (count % b) < count := by
  have hlt := Nat.mod_lt count hb
  have hquotient : 0 < count / b := Nat.div_pos hle hb
  have hsum := Nat.mod_add_div count b
  have hone : b * 1 ≤ b * (count / b) := Nat.mul_le_mul_left b hquotient
  omega

/-! ### Ranges -/

theorem toNat_sub_start {start stop : BitVec w} (hrange : start < stop) :
    (stop - start).toNat = stop.toNat - start.toNat :=
  toNat_sub_lo (BitVec.le_of_lt hrange)

theorem add_offset_of_lt {start stop offset : BitVec w} (hrange : start < stop)
    (hoffset : offset < stop - start) :
    (start + offset).toNat = start.toNat + offset.toNat ∧ start + offset < stop := by
  have hlt : offset.toNat < stop.toNat - start.toNat := by
    rw [← toNat_sub_start hrange]
    exact hoffset
  have hstop := stop.isLt
  have hsum : (start + offset).toNat = start.toNat + offset.toNat := by
    rw [BitVec.toNat_add]
    exact Nat.mod_eq_of_lt (by omega)
  refine ⟨hsum, ?_⟩
  rw [BitVec.lt_def, hsum]
  omega

theorem rangeValueOf_eq_some {start stop word value : BitVec w} :
    rangeValueOf lo hi start stop word = some value ↔
      valueOf lo hi (stop - start) word = some (value - start) := by
  rw [rangeValueOf, Option.map_eq_some_iff]
  constructor
  · rintro ⟨offset, hoffset, rfl⟩
    rw [hoffset, BitVec.add_comm, BitVec.add_sub_cancel]
  · intro hvalue
    exact ⟨value - start, hvalue, by rw [BitVec.add_comm, BitVec.sub_add_cancel]⟩

theorem card_rangeValueOf_eq_some (hwords : lo ≤ hi) {start stop value : BitVec w}
    (hrange : start < stop) (hlength : stop.toNat - start.toNat ≤ wordCount lo hi)
    (hstart : start ≤ value) (hstop : value < stop) :
    #{word ∈ wordsBetween lo hi | rangeValueOf lo hi start stop word = some value} =
      wordCount lo hi / (stop.toNat - start.toNat) := by
  have hoffset : value - start < stop - start := by
    have hstart' : start.toNat ≤ value.toNat := hstart
    have hstop' : value.toNat < stop.toNat := hstop
    rw [BitVec.lt_def, toNat_sub_lo hstart, toNat_sub_start hrange]
    omega
  rw [← toNat_sub_start hrange] at hlength ⊢
  simp only [rangeValueOf_eq_some]
  exact card_valueOf_eq_some hwords hlength hoffset

/-! ### The draws of an engine -/

/-- Each value in `values`, and no other, is taken for `share` of the words from `lo` to `hi`. -/
def EquallyOften (lo hi : BitVec w) (value? : BitVec w → Option (BitVec w))
    (values : BitVec w → Prop) (share : Nat) : Prop :=
  (∀ word value, value? word = some value → values value) ∧
    ∀ value, values value → #{word ∈ wordsBetween lo hi | value? word = some value} = share

theorem equallyOften_valueOf (hrange : lo ≤ hi) (hpos : 0 < bound.toNat)
    (hbound : bound.toNat ≤ wordCount lo hi) :
    EquallyOften lo hi (valueOf lo hi bound) (· < bound) (wordCount lo hi / bound.toNat) := by
  refine ⟨?_, ?_⟩
  · intro word value hvalue
    exact lt_of_valueOf (ne_zero_of_toNat_pos hpos) hvalue
  · intro value hvalue
    exact card_valueOf_eq_some hrange hbound hvalue

theorem equallyOften_rangeValueOf (hwords : lo ≤ hi) {start stop : BitVec w} (hrange : start < stop)
    (hlength : stop.toNat - start.toNat ≤ wordCount lo hi) :
    EquallyOften lo hi (rangeValueOf lo hi start stop) (fun value => start ≤ value ∧ value < stop)
      (wordCount lo hi / (stop.toNat - start.toNat)) := by
  refine ⟨?_, ?_⟩
  · intro word value hvalue
    obtain ⟨offset, hoffset, rfl⟩ := Option.map_eq_some_iff.1 hvalue
    have hlt := lt_of_valueOf (sub_ne_zero_of_lt hrange) hoffset
    obtain ⟨hsum, hstop⟩ := add_offset_of_lt hrange hlt
    refine ⟨?_, hstop⟩
    rw [BitVec.le_def, hsum]
    exact Nat.le_add_right _ _
  · intro value hvalue
    exact card_rangeValueOf_eq_some hwords hrange hlength hvalue.1 hvalue.2

/-- **Draws are exactly uniform.** Each value below a bound is taken for equally many words, and
less than half of the words are rejected. A draw takes the first word that is not, and a range adds
its start without a wrap. -/
theorem draws_equallyOften {σ : Type} {w : Nat} [Engine σ w]
    (hwords : Engine.lo σ ≤ Engine.hi σ) :
    let lo : BitVec w := Engine.lo σ
    let hi : BitVec w := Engine.hi σ
    let count := hi.toNat - lo.toNat + 1
    (∀ bound : BitVec w, 1 ≤ bound.toNat → bound.toNat ≤ count →
      EquallyOften lo hi (valueOf lo hi bound) (· < bound) (count / bound.toNat) ∧
      #{word ∈ wordsBetween lo hi | valueOf lo hi bound word = none} = count % bound.toNat ∧
      count % bound.toNat < bound.toNat ∧ 2 * (count % bound.toNat) < count ∧
      ∀ (budget : Nat) (engine after : σ) (value : BitVec w),
        below budget bound engine = (.ok value, after) ↔
          TakesFirst (valueOf lo hi bound) budget engine value after) ∧
    ∀ start stop : BitVec w, start < stop → stop.toNat - start.toNat ≤ count →
      EquallyOften lo hi (rangeValueOf lo hi start stop)
        (fun value => start ≤ value ∧ value < stop) (count / (stop.toNat - start.toNat)) ∧
      (∀ word offset, valueOf lo hi (stop - start) word = some offset →
        (start + offset).toNat = start.toNat + offset.toNat) ∧
      ∀ (budget : Nat) (engine after : σ) (value : BitVec w),
        range budget start stop engine = (.ok value, after) ↔
          TakesFirst (rangeValueOf lo hi start stop) budget engine value after := by
  intro lo hi count
  refine ⟨?_, ?_⟩
  · intro bound hpos hbound
    refine ⟨equallyOften_valueOf hwords hpos hbound, card_valueOf_eq_none hwords hpos hbound,
      Nat.mod_lt _ hpos, two_mul_mod_lt hpos hbound, ?_⟩
    intro budget engine after value
    exact below_eq_ok (ne_zero_of_toNat_pos hpos)
  · intro start stop hrange hlength
    refine ⟨equallyOften_rangeValueOf hwords hrange hlength, ?_, ?_⟩
    · intro word offset hoffset
      exact (add_offset_of_lt hrange (lt_of_valueOf (sub_ne_zero_of_lt hrange) hoffset)).1
    · intro budget engine after value
      exact range_eq_ok hrange

/-- The words of SplitMix are all words, so that their number wraps to zero. -/
theorem draws_equallyOften_splitMix :
    #{word ∈ wordsBetween (Engine.lo SplitMix) (Engine.hi SplitMix) |
        valueOf (Engine.lo SplitMix) (Engine.hi SplitMix) 7 word = some 3} = 2635249153387078802 ∧
      #{word ∈ wordsBetween (Engine.lo SplitMix) (Engine.hi SplitMix) |
        valueOf (Engine.lo SplitMix) (Engine.hi SplitMix) 7 word = none} = 2 ∧
      #{word ∈ wordsBetween (Engine.lo SplitMix) (Engine.hi SplitMix) |
        rangeValueOf (Engine.lo SplitMix) (Engine.hi SplitMix) 250 255 word = some 254} =
          3689348814741910323 := by
  have hdraws := draws_equallyOften (σ := SplitMix) (by decide)
  obtain ⟨⟨_, hseven⟩, hrejected, _⟩ := hdraws.1 7 (by decide) (by decide)
  obtain ⟨⟨_, hrange⟩, _⟩ := hdraws.2 250 255 (by decide) (by decide)
  exact ⟨hseven 3 (by decide), hrejected, hrange 254 (by decide)⟩

end Keystream.Draw
