import Keystream.Proofs.Draw.Uniform
import Keystream.Proofs.Shuffle.Run
import Mathlib.Algebra.BigOperators.Intervals
import Mathlib.Data.Fintype.BigOperators
import Mathlib.SetTheory.Cardinal.Finite

/-!
# Shuffles are uniform

On distinct items the positions that are drawn and the ordering they lead to determine each other,
and each draw takes its positions for equally many words. So all orderings come from equally many
tuples of accepted words, one word for each bound, and their number is the product over the bounds
of the words that one position has.
-/

namespace Keystream

open Finset

variable {α : Type} {w : Nat} {lo hi : BitVec w} {items : Array α}

/-- One position for each bound from `count` down to 2, below the bound. -/
abbrev Choices (count : Nat) : Type :=
  (bound : Icc 2 count) → Fin bound

def Choices.position {count : Nat} (choices : Choices count) (bound : Nat) : Nat :=
  if h : bound ∈ Icc 2 count then choices ⟨bound, h⟩ else 0

theorem Choices.position_eq {count : Nat} (choices : Choices count) (bound : Icc 2 count) :
    choices.position bound = choices bound :=
  dif_pos bound.2

theorem Choices.chosenBelow {count : Nat} (choices : Choices count) :
    ChosenBelow choices.position count := by
  intro bound htwo hbound
  have hmem : bound ∈ Icc 2 count := mem_Icc.2 ⟨htwo, hbound⟩
  rw [choices.position_eq ⟨bound, hmem⟩]
  exact (choices ⟨bound, hmem⟩).isLt

def ordering (items : Array α) (choices : Choices items.size) :
    {target : Array α // target.Perm items} :=
  ⟨exchanged choices.position items.size items, .of_toList_perm (perm_exchanged _ _ _)⟩

theorem exists_ordering_eq {choice : Nat → Nat} (hchoice : ChosenBelow choice items.size) :
    ∃ choices : Choices items.size, (∀ bound, (choices bound).val = choice bound) ∧
      (ordering items choices).val = exchanged choice items.size items := by
  have hbelow : ∀ bound : Icc 2 items.size, choice bound < bound := fun bound =>
    hchoice bound (mem_Icc.1 bound.2).1 (mem_Icc.1 bound.2).2
  refine ⟨fun bound => ⟨choice bound, hbelow bound⟩, fun bound => rfl, ?_⟩
  exact exchanged_congr items fun k htwo hk =>
    Choices.position_eq _ ⟨k, mem_Icc.2 ⟨htwo, hk⟩⟩

theorem ordering_injective (hdistinct : items.toList.Nodup) :
    Function.Injective (ordering items) := by
  intro choices others heq
  have hsame := choice_eq_of_exchanged_eq hdistinct (Nat.le_refl _) choices.chosenBelow
    others.chosenBelow (congrArg Subtype.val heq)
  funext bound
  obtain ⟨htwo, hbound⟩ := mem_Icc.1 bound.2
  have := hsame bound htwo hbound
  rw [Choices.position_eq, Choices.position_eq] at this
  exact Fin.ext this

theorem ordering_surjective (hdistinct : items.toList.Nodup) :
    Function.Surjective (ordering items) := by
  rintro ⟨target, hperm⟩
  have hsize : target.size = items.size := hperm.size_eq
  obtain ⟨choice, hchoice, hreached⟩ := exists_exchanged_eq hdistinct (Nat.le_refl _) hperm.toList
    fun p hp => by
      rw [Array.getElem?_eq_none hp, Array.getElem?_eq_none (by omega)]
  obtain ⟨choices, -, hordering⟩ := exists_ordering_eq hchoice
  exact ⟨choices, Subtype.ext (hordering.trans hreached)⟩

theorem ordering_bijective (hdistinct : items.toList.Nodup) :
    Function.Bijective (ordering items) :=
  ⟨ordering_injective hdistinct, ordering_surjective hdistinct⟩

theorem card_choices (count : Nat) : Fintype.card (Choices count) = count.factorial := by
  simp only [Fintype.card_pi, Fintype.card_fin, prod_coe_sort (Icc 2 count) fun bound => bound]
  induction count with
  | zero => rfl
  | succ last ih =>
      cases last with
      | zero => rfl
      | succ last =>
          rw [prod_Icc_succ_top (by omega), ih, Nat.factorial_succ (last + 1), Nat.mul_comm]

theorem card_orderings (hdistinct : items.toList.Nodup) :
    Nat.card {target : Array α // target.Perm items} = items.size.factorial := by
  rw [← Nat.card_eq_of_bijective (ordering items) (ordering_bijective hdistinct),
    Nat.card_eq_fintype_card, card_choices]

/-! ### Words -/

/-- Each word is accepted for its bound, and taken for the position chosen below the bound. -/
def TakenFor (lo hi : BitVec w) {count : Nat} (words : Icc 2 count → BitVec w)
    (choices : Choices count) : Prop :=
  ∀ bound : Icc 2 count, Draw.positionOf lo hi bound (words bound) = some (choices bound).val

theorem card_positionOf_eq_some (hrange : lo ≤ hi) {len position : Nat} (hfits : len < 2 ^ w)
    (hlen : len ≤ Draw.wordCount lo hi) (hposition : position < len) :
    #{word ∈ Draw.wordsBetween lo hi | Draw.positionOf lo hi len word = some position} =
      Draw.wordCount lo hi / len := by
  have hbound : (BitVec.ofNat w len).toNat = len := Nat.mod_eq_of_lt hfits
  have hpositionFits : position < 2 ^ w := Nat.lt_trans hposition hfits
  have hvalue : (BitVec.ofNat w position).toNat = position := Nat.mod_eq_of_lt hpositionFits
  simp only [Draw.positionOf_eq_some_iff hpositionFits]
  rw [Draw.card_valueOf_eq_some hrange (by rw [hbound]; exact hlen), hbound]
  rw [BitVec.lt_def, hvalue, hbound]
  exact hposition

def LeadsTo (lo hi : BitVec w) (words : Icc 2 items.size → BitVec w)
    (target : {target : Array α // target.Perm items}) : Prop :=
  (∀ bound, words bound ∈ Draw.wordsBetween lo hi) ∧
    ∃ choices, TakenFor lo hi words choices ∧ ordering items choices = target

theorem card_leadsTo (hrange : lo ≤ hi) (hdistinct : items.toList.Nodup)
    (hfits : items.size < 2 ^ w) (hcount : items.size ≤ Draw.wordCount lo hi)
    (target : {target : Array α // target.Perm items}) :
    Nat.card {words // LeadsTo lo hi words target} =
      ∏ bound ∈ Icc 2 items.size, Draw.wordCount lo hi / bound := by
  -- a tuple leads to the ordering as soon as each word by itself is taken for its one position
  obtain ⟨choices, rfl⟩ := ordering_surjective hdistinct target
  have hmem : ∀ words : Icc 2 items.size → BitVec w,
      (words ∈ Fintype.piFinset fun bound : Icc 2 items.size =>
        {word ∈ Draw.wordsBetween lo hi |
          Draw.positionOf lo hi bound word = some (choices bound).val}) ↔
        LeadsTo lo hi words (ordering items choices) := by
    intro words
    simp only [Fintype.mem_piFinset, mem_filter]
    constructor
    · intro hwords
      exact ⟨fun bound => (hwords bound).1, choices, fun bound => (hwords bound).2, rfl⟩
    · rintro ⟨hwords, others, htaken, heq⟩
      obtain rfl := ordering_injective hdistinct heq
      exact fun bound => ⟨hwords bound, htaken bound⟩
  rw [Nat.subtype_card _ hmem, Fintype.card_piFinset, ← prod_coe_sort (Icc 2 items.size)]
  refine prod_congr rfl fun bound _ => ?_
  have hbound := (mem_Icc.1 bound.2).2
  exact card_positionOf_eq_some hrange (by omega) (by omega) (choices bound).isLt

/-! ### The shuffles of an engine -/

section Engines

variable {σ : Type} [Engine σ w] {budget : Nat} {engine after : σ}

/-- For each bound the word in `words` is the first accepted one, on the way to `after`. -/
def AcceptsAll (budget : Nat) {count : Nat} (words : Icc 2 count → BitVec w) (engine after : σ) :
    Prop :=
  ∃ engines : Nat → σ, engines count = engine ∧ engines 1 = after ∧
    ∀ bound : Icc 2 count, Draw.Accepts (Draw.positionOf (Engine.lo σ) (Engine.hi σ) bound) budget
      (engines bound) (words bound) (engines (bound - 1))

theorem drawn_index {count : Nat} (hfits : count < 2 ^ w) {choices : Choices count}
    {engines : Nat → σ} :
    Drawn (Draw.index budget) choices.position engines count ↔
      ∃ words, (∀ bound : Icc 2 count,
          Draw.Accepts (Draw.positionOf (Engine.lo σ) (Engine.hi σ) bound) budget (engines bound)
            (words bound) (engines (bound - 1))) ∧
        TakenFor (Engine.lo σ) (Engine.hi σ) words choices := by
  have hindex : ∀ bound : Icc 2 count,
      Draw.index budget bound (engines bound) =
          (.ok (choices.position bound), engines (bound - 1)) ↔
        ∃ word, Draw.Accepts (Draw.positionOf (Engine.lo σ) (Engine.hi σ) bound) budget
            (engines bound) word (engines (bound - 1)) ∧
          Draw.positionOf (Engine.lo σ) (Engine.hi σ) bound word = some (choices bound).val := by
    intro bound
    obtain ⟨htwo, hbound⟩ := mem_Icc.1 bound.2
    rw [Draw.index_eq_ok (by omega) (by omega), Draw.takesFirst_iff, choices.position_eq]
  constructor
  · intro hdrawn
    choose words haccepts htaken using fun bound : Icc 2 count =>
      (hindex bound).1 (hdrawn bound (mem_Icc.1 bound.2).1 (mem_Icc.1 bound.2).2)
    exact ⟨words, haccepts, htaken⟩
  · rintro ⟨words, haccepts, htaken⟩ k htwo hk
    have hmem : k ∈ Icc 2 count := mem_Icc.2 ⟨htwo, hk⟩
    exact (hindex ⟨k, hmem⟩).2 ⟨words ⟨k, hmem⟩, haccepts ⟨k, hmem⟩, htaken ⟨k, hmem⟩⟩

theorem shuffle_eq_shuffleWith (htwo : 2 ≤ items.size) (hfits : items.size < 2 ^ w) :
    shuffle budget items engine = shuffleWith (Draw.index budget) items.size items engine := by
  rw [shuffle, if_neg (by omega), Draw.lengthWord_eq hfits]

theorem shuffle_eq_finished {result : Array α} (htwo : 2 ≤ items.size)
    (hfits : items.size < 2 ^ w) :
    shuffle budget items engine = .finished result after ↔
      ∃ words choices, AcceptsAll budget words engine after ∧
        TakenFor (Engine.lo σ) (Engine.hi σ) words choices ∧
        (ordering items choices).val = result := by
  have hpicks : PicksAmong (Draw.index budget : Nat → Draw σ Nat) items.size :=
    picksAmong_index hfits
  rw [shuffle_eq_shuffleWith htwo hfits,
    shuffleWith_eq_finished (by omega) hpicks (Nat.le_refl _)]
  constructor
  · rintro ⟨choice, engines, hfirst, hlast, hdrawn, rfl⟩
    obtain ⟨choices, hchoices, hordering⟩ := exists_ordering_eq (hdrawn.chosenBelow hpicks)
    have hdrawn' : Drawn (Draw.index budget) choices.position engines items.size := by
      intro k htwo hk
      rw [choices.position_eq ⟨k, mem_Icc.2 ⟨htwo, hk⟩⟩, hchoices]
      exact hdrawn k htwo hk
    obtain ⟨words, haccepts, htaken⟩ := (drawn_index hfits).1 hdrawn'
    exact ⟨words, choices, ⟨engines, hfirst, hlast, haccepts⟩, htaken, hordering⟩
  · rintro ⟨words, choices, ⟨engines, hfirst, hlast, haccepts⟩, htaken, rfl⟩
    exact ⟨choices.position, engines, hfirst, hlast,
      (drawn_index hfits).2 ⟨words, haccepts, htaken⟩, rfl⟩

theorem perm_shuffle (htwo : 2 ≤ items.size) (hfits : items.size < 2 ^ w) :
    (shuffle budget items engine).items.Perm items := by
  rw [shuffle_eq_shuffleWith htwo hfits]
  exact .of_toList_perm (perm_shuffleWith _ _ _ _)

/-- **Shuffles are exactly uniform and lose nothing.** The positions that are drawn and the
orderings of distinct items correspond one to one, and each ordering comes from equally many tuples
of accepted words. On any items the outcome is a permutation. -/
theorem shuffle_equallyOften {α σ : Type} {w : Nat} [Engine σ w]
    (hwords : Engine.lo σ ≤ Engine.hi σ) (items : Array α) (htwo : 2 ≤ items.size)
    (hfits : items.size < 2 ^ w)
    (hcount : items.size ≤ (Engine.hi σ).toNat - (Engine.lo σ).toNat + 1) :
    let lo : BitVec w := Engine.lo σ
    let hi : BitVec w := Engine.hi σ
    (items.toList.Nodup →
      Function.Bijective (ordering items) ∧
      Nat.card {target : Array α // target.Perm items} = items.size.factorial ∧
      ∀ target : {target : Array α // target.Perm items},
        Nat.card {words // LeadsTo lo hi words target} =
          ∏ bound ∈ Icc 2 items.size, (hi.toNat - lo.toNat + 1) / bound) ∧
    ∀ (budget : Nat) (engine : σ),
      (shuffle budget items engine).items.Perm items ∧
      (∀ result after, shuffle budget items engine = .finished result after ↔
        ∃ words choices, AcceptsAll budget words engine after ∧ TakenFor lo hi words choices ∧
          (ordering items choices).val = result) ∧
      ∀ result after, shuffle budget items engine = .finished result after →
        shuffleWith (Draw.recorded (Draw.index budget)) items.size items (engine, []) =
          .finished result (after, (List.range' 2 (items.size - 1)).reverse) := by
  intro lo hi
  refine ⟨?_, ?_⟩
  · intro hdistinct
    exact ⟨ordering_bijective hdistinct, card_orderings hdistinct,
      card_leadsTo hwords hdistinct hfits hcount⟩
  · intro budget engine
    refine ⟨perm_shuffle htwo hfits, fun result after => shuffle_eq_finished htwo hfits, ?_⟩
    intro result after hrun
    rw [shuffle_eq_shuffleWith htwo hfits] at hrun
    exact shuffleWith_recorded (by omega) (picksAmong_index hfits) (Nat.le_refl _) hrun

theorem shuffle_equallyOften_splitMix :
    let items : Array Nat := #[10, 20, 30]
    (∀ target : {target : Array Nat // target.Perm items},
      Nat.card {words // LeadsTo (Engine.lo SplitMix) (Engine.hi SplitMix) words target} =
        9223372036854775808 * 6148914691236517205) ∧
      shuffleWith (Draw.recorded (Draw.index 4)) 3 items (SplitMix.initial, []) =
        .finished #[30, 10, 20] (⟨4354685564936845354⟩, [3, 2]) := by
  intro items
  have hshuffle := shuffle_equallyOften (σ := SplitMix) (by decide) items (by decide) (by decide)
    (by decide)
  obtain ⟨-, -, hcard⟩ := hshuffle.1 (by decide)
  obtain ⟨-, -, hrecorded⟩ := hshuffle.2 4 SplitMix.initial
  have hproduct : ∏ bound ∈ Icc 2 3,
      ((Engine.hi SplitMix).toNat - (Engine.lo SplitMix).toNat + 1) / bound =
        9223372036854775808 * 6148914691236517205 := by rfl
  have hrun : shuffle 4 items SplitMix.initial =
      .finished #[30, 10, 20] ⟨4354685564936845354⟩ := by rfl
  exact ⟨fun target => (hcard target).trans hproduct, hrecorded _ _ hrun⟩

end Engines

end Keystream
