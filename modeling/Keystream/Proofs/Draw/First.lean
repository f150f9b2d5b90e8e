import Keystream.Draw
import Keystream.Proofs.Stateful
import Mathlib.Algebra.Group.Nat.Defs

/-!
# Draws take the first accepted word

An engine is a stream of words. A draw looks at them in order, takes the first one that stands for a
value, and leaves the engine just after it; with a budget that ends before that word it takes none.
This holds of any stream, so all that is special to a draw is which words stand for which values.
-/

namespace Keystream

namespace Engine

variable {σ : Type} {w : Nat} [Engine σ w]

def after (count : Nat) (engine : σ) : σ :=
  advanceBy next count engine

def wordAt (count : Nat) (engine : σ) : BitVec w :=
  (next (after count engine)).1

theorem after_zero (engine : σ) : after 0 engine = engine := rfl

theorem after_succ (count : Nat) (engine : σ) :
    after (count + 1) engine = after count (next engine).2 := rfl

theorem wordAt_zero (engine : σ) : wordAt 0 engine = (next engine).1 := rfl

end Engine

namespace Draw

open Stateful

variable {σ α : Type} {w : Nat} [Engine σ w] {budget : Nat} {engine after : σ}

/-- The first word that stands for a value comes within the budget and leaves `after`. -/
def TakesFirst (value? : BitVec w → Option α) (budget : Nat) (engine : σ) (value : α) (after : σ) :
    Prop :=
  ∃ count < budget, (∀ k < count, value? (Engine.wordAt k engine) = none) ∧
    value? (Engine.wordAt count engine) = some value ∧ after = Engine.after (count + 1) engine

theorem takesFirst_succ_of_some {value? : BitVec w → Option α} {value taken : α}
    (hword : value? (Engine.next engine).1 = some value) :
    TakesFirst value? (budget + 1) engine taken after ↔
      value = taken ∧ (Engine.next engine).2 = after := by
  constructor
  · rintro ⟨count, -, hnone, hsome, hafter⟩
    cases count with
    | zero =>
        rw [Engine.wordAt_zero, hword] at hsome
        exact ⟨Option.some.inj hsome, hafter.symm⟩
    | succ count =>
        have hrejected := hnone 0 (Nat.succ_pos count)
        rw [Engine.wordAt_zero, hword] at hrejected
        cases hrejected
  · rintro ⟨rfl, rfl⟩
    refine ⟨0, Nat.succ_pos budget, ?_, hword, rfl⟩
    intro k hk
    exact absurd hk (Nat.not_lt_zero k)

theorem takesFirst_succ_of_none {value? : BitVec w → Option α} {taken : α}
    (hword : value? (Engine.next engine).1 = none) :
    TakesFirst value? (budget + 1) engine taken after ↔
      TakesFirst value? budget (Engine.next engine).2 taken after := by
  constructor
  · rintro ⟨count, hcount, hnone, hsome, hafter⟩
    cases count with
    | zero =>
        rw [Engine.wordAt_zero, hword] at hsome
        cases hsome
    | succ count =>
        refine ⟨count, Nat.lt_of_succ_lt_succ hcount, ?_, hsome, hafter⟩
        intro k hk
        exact hnone (k + 1) (Nat.succ_lt_succ hk)
  · rintro ⟨count, hcount, hnone, hsome, hafter⟩
    refine ⟨count + 1, Nat.succ_lt_succ hcount, ?_, hsome, hafter⟩
    intro k hk
    cases k with
    | zero => exact hword
    | succ k => exact hnone k (Nat.lt_of_succ_lt_succ hk)

theorem first_eq_ok {value? : BitVec w → Option α} {taken : α} :
    first value? budget engine = (.ok taken, after) ↔
      TakesFirst value? budget engine taken after := by
  induction budget generalizing engine with
  | zero =>
      constructor
      · intro hfirst
        cases hfirst
      · rintro ⟨count, hcount, -⟩
        exact absurd hcount (Nat.not_lt_zero count)
  | succ budget ih =>
      rcases hword : value? (Engine.next engine).1 with _ | value
      · rw [takesFirst_succ_of_none hword, ← ih]
        simp only [first, hword]
      · rw [takesFirst_succ_of_some hword]
        simp only [first, hword, Prod.mk.injEq, Except.ok.injEq]

/-- A draw without a value has rejected its whole budget of words. -/
theorem first_eq_error {value? : BitVec w → Option α} {reason : Stop} :
    first value? budget engine = (.error reason, after) ↔
      reason = .starved ∧ (∀ k < budget, value? (Engine.wordAt k engine) = none) ∧
        after = Engine.after budget engine := by
  induction budget generalizing engine with
  | zero =>
      simp only [first, Prod.mk.injEq, Except.error.injEq, Engine.after_zero, Nat.not_lt_zero,
        false_implies, implies_true, true_and]
      exact and_congr eq_comm eq_comm
  | succ budget ih =>
      rcases hword : value? (Engine.next engine).1 with _ | value
      · simp only [first, hword]
        rw [ih, Engine.after_succ]
        refine and_congr_right fun _ => and_congr_left fun _ => ?_
        constructor
        · intro hnone k hk
          cases k with
          | zero => exact hword
          | succ k => exact hnone k (Nat.lt_of_succ_lt_succ hk)
        · intro hnone k hk
          exact hnone (k + 1) (Nat.succ_lt_succ hk)
      · simp only [first, hword]
        constructor
        · intro hfirst
          cases hfirst
        · rintro ⟨-, hnone, -⟩
          have hrejected := hnone 0 (Nat.succ_pos budget)
          rw [Engine.wordAt_zero, hword] at hrejected
          cases hrejected

theorem takesFirst_map {β : Type} {value? : BitVec w → Option α} {f : α → β} {taken : β} :
    TakesFirst (fun word => (value? word).map f) budget engine taken after ↔
      ∃ value, TakesFirst value? budget engine value after ∧ f value = taken := by
  simp only [TakesFirst, Option.map_eq_none_iff, Option.map_eq_some_iff]
  constructor
  · rintro ⟨count, hcount, hnone, ⟨value, hsome, hvalue⟩, hafter⟩
    exact ⟨value, ⟨count, hcount, hnone, hsome, hafter⟩, hvalue⟩
  · rintro ⟨value, ⟨count, hcount, hnone, hsome, hafter⟩, hvalue⟩
    exact ⟨count, hcount, hnone, ⟨value, hsome, hvalue⟩, hafter⟩

/-- The first word that stands for a value is `word`, within the budget, and leaves `after`. -/
def Accepts (value? : BitVec w → Option α) (budget : Nat) (engine : σ) (word : BitVec w)
    (after : σ) : Prop :=
  ∃ count < budget, (∀ k < count, value? (Engine.wordAt k engine) = none) ∧
    (value? word).isSome = true ∧ Engine.wordAt count engine = word ∧
    after = Engine.after (count + 1) engine

theorem takesFirst_iff {value? : BitVec w → Option α} {taken : α} :
    TakesFirst value? budget engine taken after ↔
      ∃ word, Accepts value? budget engine word after ∧ value? word = some taken := by
  constructor
  · rintro ⟨count, hcount, hnone, hsome, hafter⟩
    refine ⟨Engine.wordAt count engine, ⟨count, hcount, hnone, ?_, rfl, hafter⟩, hsome⟩
    rw [hsome, Option.isSome_some]
  · rintro ⟨word, ⟨count, hcount, hnone, -, rfl, hafter⟩, hsome⟩
    exact ⟨count, hcount, hnone, hsome, hafter⟩

/-! ### The three kinds of draw -/

def valueOf (lo hi bound word : BitVec w) : Option (BitVec w) :=
  reduce? lo (threshold lo hi bound) bound word

def positionOf (lo hi : BitVec w) (len : Nat) (word : BitVec w) : Option Nat :=
  (valueOf lo hi (BitVec.ofNat w len) word).map BitVec.toNat

def rangeValueOf (lo hi start stop word : BitVec w) : Option (BitVec w) :=
  (valueOf lo hi (stop - start) word).map (start + ·)

theorem below_eq {bound : BitVec w} (hbound : bound ≠ 0) :
    below budget bound engine =
      first (valueOf (Engine.lo σ) (Engine.hi σ) bound) budget engine := by
  rw [below, if_neg hbound]
  rfl

theorem lt_of_valueOf {lo hi bound word value : BitVec w} (hbound : bound ≠ 0)
    (hvalue : valueOf lo hi bound word = some value) : value < bound := by
  have hpos : 0 < bound.toNat := by
    apply Nat.pos_of_ne_zero
    intro hzero
    exact hbound (BitVec.eq_of_toNat_eq hzero)
  rw [valueOf, reduce?] at hvalue
  split at hvalue
  · cases hvalue
    rw [BitVec.lt_def, BitVec.toNat_umod]
    exact Nat.mod_lt _ hpos
  · cases hvalue

theorem lengthWord_eq {len : Nat} (hfits : len < 2 ^ w) :
    lengthWord w len = .ok (BitVec.ofNat w len) := by
  have hcounted : len ≤ (BitVec.allOnes w).toNat := by
    rw [BitVec.toNat_allOnes]
    exact Nat.le_sub_one_of_lt hfits
  rw [lengthWord, Word.ofSize?, if_pos hcounted]

theorem lengthWord_of_ge (hlen : 2 ^ w ≤ len) :
    lengthWord w len = .error (.tooManyValues len w) := by
  have hwide : ¬len ≤ (BitVec.allOnes w).toNat := by
    rw [BitVec.toNat_allOnes]
    have hpos := Nat.two_pow_pos w
    omega
  rw [lengthWord, Word.ofSize?, if_neg hwide]

theorem ofNat_ne_zero {len : Nat} (hpos : 0 < len) (hfits : len < 2 ^ w) :
    BitVec.ofNat w len ≠ 0 := by
  intro hzero
  have htoNat := congrArg BitVec.toNat hzero
  rw [BitVec.toNat_ofNat, Nat.mod_eq_of_lt hfits] at htoNat
  exact absurd htoNat (Nat.ne_of_gt hpos)

theorem below_eq_ok {bound value : BitVec w} (hbound : bound ≠ 0) :
    below budget bound engine = (.ok value, after) ↔
      TakesFirst (valueOf (Engine.lo σ) (Engine.hi σ) bound) budget engine value after := by
  rw [below_eq hbound, first_eq_ok]

theorem index_eq_ok {len chosen : Nat} (hpos : 0 < len) (hfits : len < 2 ^ w) :
    index budget len engine = (.ok chosen, after) ↔
      TakesFirst (positionOf (Engine.lo σ) (Engine.hi σ) len) budget engine chosen after := by
  unfold positionOf
  rw [takesFirst_map, index, lengthWord_eq hfits, bind_eq_ok]
  simp only [below_eq_ok (ofNat_ne_zero hpos hfits), pure_eq_ok]
  constructor
  · rintro ⟨value, _, hbelow, hvalue, rfl⟩
    exact ⟨value, hbelow, hvalue⟩
  · rintro ⟨value, hbelow, hvalue⟩
    exact ⟨value, after, hbelow, hvalue, rfl⟩

theorem lt_of_positionOf {lo hi : BitVec w} {len position : Nat} {word : BitVec w} (hpos : 0 < len)
    (hfits : len < 2 ^ w) (hposition : positionOf lo hi len word = some position) :
    position < len := by
  obtain ⟨value, hvalue, rfl⟩ := Option.map_eq_some_iff.1 hposition
  have hlt := lt_of_valueOf (ofNat_ne_zero hpos hfits) hvalue
  rwa [BitVec.lt_def, BitVec.toNat_ofNat, Nat.mod_eq_of_lt hfits] at hlt

theorem positionOf_eq_some_iff {lo hi : BitVec w} {len position : Nat} {word : BitVec w}
    (hposition : position < 2 ^ w) :
    positionOf lo hi len word = some position ↔
      valueOf lo hi (BitVec.ofNat w len) word = some (BitVec.ofNat w position) := by
  rw [positionOf, Option.map_eq_some_iff]
  constructor
  · rintro ⟨value, hsome, rfl⟩
    rw [hsome, BitVec.ofNat_toNat, BitVec.setWidth_eq]
  · intro hsome
    exact ⟨_, hsome, Nat.mod_eq_of_lt hposition⟩

theorem lt_of_index {len chosen : Nat} (hpos : 0 < len) (hfits : len < 2 ^ w)
    (hindex : index budget len engine = (.ok chosen, after)) : chosen < len := by
  obtain ⟨_, _, _, hposition, _⟩ := (index_eq_ok hpos hfits).1 hindex
  exact lt_of_positionOf hpos hfits hposition

theorem eq_starved_of_below {bound : BitVec w} {reason : Stop} (hbound : bound ≠ 0)
    (hbelow : below budget bound engine = (.error reason, after)) : reason = .starved := by
  rw [below_eq hbound, first_eq_error] at hbelow
  exact hbelow.1

theorem eq_starved_of_index {len : Nat} {reason : Stop} (hpos : 0 < len) (hfits : len < 2 ^ w)
    (hindex : index budget len engine = (.error reason, after)) : reason = .starved := by
  rw [index, lengthWord_eq hfits] at hindex
  exact eq_starved_of_below (ofNat_ne_zero hpos hfits) (bind_pure_eq_error.1 hindex)

theorem sub_ne_zero_of_lt {start stop : BitVec w} (hrange : start < stop) : stop - start ≠ 0 := by
  intro hzero
  have hsame : stop = start := by
    rw [← BitVec.sub_add_cancel stop start, hzero]
    exact BitVec.zero_add start
  rw [hsame] at hrange
  exact BitVec.lt_irrefl start hrange

theorem range_eq_ok {start stop value : BitVec w} (hrange : start < stop) :
    range budget start stop engine = (.ok value, after) ↔
      TakesFirst (rangeValueOf (Engine.lo σ) (Engine.hi σ) start stop) budget engine value
        after := by
  unfold rangeValueOf
  rw [takesFirst_map, range, if_neg (BitVec.not_le.2 hrange), bind_eq_ok]
  simp only [below_eq_ok (sub_ne_zero_of_lt hrange), pure_eq_ok]
  constructor
  · rintro ⟨offset, _, hbelow, hvalue, rfl⟩
    exact ⟨offset, hbelow, hvalue⟩
  · rintro ⟨offset, hbelow, hvalue⟩
    exact ⟨offset, after, hbelow, hvalue, rfl⟩

end Draw

end Keystream
