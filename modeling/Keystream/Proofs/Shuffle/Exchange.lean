import Keystream.Proofs.Swap
import Keystream.Shuffle
import Mathlib.Data.List.Nodup
import Mathlib.Logic.Function.Basic

/-!
# The exchanges of a shuffle

A shuffle draws one position for each bound, from the number of items down to 2, and every draw
leads to one exchange. Here the exchanges stand apart from the draws: as a function of the positions
they permute the items, and on distinct items different positions lead to different orderings and
every ordering is reached.
-/

namespace Keystream

variable {α : Type}

/-- The items after the exchanges for the bounds from `bound` down to 2. -/
def exchanged (choice : Nat → Nat) : (bound : Nat) → Array α → Array α
  | 0, items | 1, items => items
  | bound + 2, items =>
      exchanged choice (bound + 1) (items.swapIfInBounds (choice (bound + 2)) (bound + 1))

def ChosenBelow (choice : Nat → Nat) (bound : Nat) : Prop :=
  ∀ k, 2 ≤ k → k ≤ bound → choice k < k

theorem ChosenBelow.mono {choice : Nat → Nat} {bound smaller : Nat}
    (hchoice : ChosenBelow choice bound) (hle : smaller ≤ bound) : ChosenBelow choice smaller :=
  fun k htwo hk => hchoice k htwo (Nat.le_trans hk hle)

theorem ChosenBelow.update {choice : Nat → Nat} {bound p : Nat} (hchoice : ChosenBelow choice bound)
    (hp : p ≤ bound) : ChosenBelow (Function.update choice (bound + 1) p) (bound + 1) := by
  intro k htwo hk
  rcases Nat.lt_or_eq_of_le hk with hlt | rfl
  · rw [Function.update_of_ne (by omega)]
    exact hchoice k htwo (by omega)
  · rw [Function.update_self]
    exact Nat.lt_succ_of_le hp

theorem exchanged_congr {choice other : Nat → Nat} {bound : Nat} (items : Array α)
    (hsame : ∀ k, 2 ≤ k → k ≤ bound → choice k = other k) :
    exchanged choice bound items = exchanged other bound items := by
  fun_induction exchanged choice bound items with
  | case1 items | case2 items => rfl
  | case3 bound items ih =>
      rw [exchanged, ← hsame (bound + 2) (by omega) (Nat.le_refl _)]
      exact ih fun k htwo hk => hsame k htwo (by omega)

theorem exchanged_update (choice : Nat → Nat) (bound p : Nat) (items : Array α) :
    exchanged (Function.update choice (bound + 2) p) (bound + 2) items =
      exchanged choice (bound + 1) (items.swapIfInBounds p (bound + 1)) := by
  rw [exchanged, Function.update_self]
  exact exchanged_congr _ fun k _ hk => Function.update_of_ne (by omega) _ _

theorem perm_exchanged (choice : Nat → Nat) (bound : Nat) (items : Array α) :
    (exchanged choice bound items).toList.Perm items.toList := by
  fun_induction exchanged choice bound items with
  | case1 items | case2 items => exact .refl _
  | case3 bound items ih => exact ih.trans (perm_swapIfInBounds items _ _)

theorem nodup_swapIfInBounds {items : Array α} (hdistinct : items.toList.Nodup) (i j : Nat) :
    (items.swapIfInBounds i j).toList.Nodup :=
  (perm_swapIfInBounds items i j).nodup_iff.2 hdistinct

/-! ### Orderings of distinct items -/

theorem getElem?_exchanged {choice : Nat → Nat} {bound p : Nat} {items : Array α}
    (hbound : bound ≤ items.size) (hchoice : ChosenBelow choice bound) (hp : bound ≤ p) :
    (exchanged choice bound items)[p]? = items[p]? := by
  fun_induction exchanged choice bound items with
  | case1 items | case2 items => rfl
  | case3 bound items ih =>
      have hlt := hchoice (bound + 2) (by omega) (Nat.le_refl _)
      rw [ih (le_size_swapIfInBounds hbound _ _) (hchoice.mono (by omega)) (by omega),
        getElem?_swapIfInBounds (by omega) (by omega), if_neg (by omega), if_neg (by omega)]

theorem getElem?_exchanged_last {choice : Nat → Nat} {bound : Nat} {items : Array α}
    (hbound : bound + 2 ≤ items.size) (hchoice : ChosenBelow choice (bound + 2)) :
    (exchanged choice (bound + 2) items)[bound + 1]? = items[choice (bound + 2)]? := by
  have hlt := hchoice (bound + 2) (by omega) (Nat.le_refl _)
  rw [exchanged, getElem?_exchanged (le_size_swapIfInBounds hbound _ _)
    (hchoice.mono (by omega)) (Nat.le_refl _), getElem?_swapIfInBounds (by omega) (by omega),
    if_pos rfl]

theorem eq_of_getElem?_eq {items : Array α} (hdistinct : items.toList.Nodup) {p q : Nat}
    (hp : p < items.size) (heq : items[p]? = items[q]?) : p = q := by
  simp only [← Array.getElem?_toList] at heq
  exact (List.getElem?_inj (by simpa using hp) hdistinct).1 heq

/-- On distinct items the ordering shows which position was chosen for each bound. -/
theorem choice_eq_of_exchanged_eq {choice other : Nat → Nat} {bound : Nat} {items : Array α}
    (hdistinct : items.toList.Nodup) (hbound : bound ≤ items.size)
    (hchoice : ChosenBelow choice bound) (hother : ChosenBelow other bound)
    (heq : exchanged choice bound items = exchanged other bound items) :
    ∀ k, 2 ≤ k → k ≤ bound → choice k = other k := by
  fun_induction exchanged choice bound items with
  | case1 items | case2 items =>
      intro k htwo hk
      omega
  | case3 bound items ih =>
      have hlast : choice (bound + 2) = other (bound + 2) := by
        have hlt := hchoice (bound + 2) (by omega) (Nat.le_refl _)
        apply eq_of_getElem?_eq hdistinct (by omega)
        rw [← getElem?_exchanged_last hbound hchoice, ← getElem?_exchanged_last hbound hother,
          ← heq, exchanged]
      rw [hlast, exchanged] at heq
      rw [hlast] at ih
      have hearlier := ih (nodup_swapIfInBounds hdistinct _ _)
        (le_size_swapIfInBounds hbound _ _) (hchoice.mono (by omega)) (hother.mono (by omega)) heq
      intro k htwo hk
      rcases Nat.lt_or_eq_of_le hk with hlt | rfl
      · exact hearlier k htwo (by omega)
      · exact hlast

theorem exists_getElem?_eq {items target : Array α} {last : Nat} (hdistinct : items.toList.Nodup)
    (hperm : target.toList.Perm items.toList) (hlast : last < items.size)
    (hdone : ∀ p, last + 1 ≤ p → target[p]? = items[p]?) :
    ∃ p ≤ last, items[p]? = target[last]? := by
  have hsize : target.size = items.size := by simpa using hperm.length_eq
  have hmem : target[last] ∈ items.toList := hperm.mem_iff.1 (by simp)
  obtain ⟨p, hp, hitem⟩ := List.getElem_of_mem hmem
  have hp' : p < items.size := by simpa using hp
  have hsame : items[p]? = target[last]? := by
    rw [Array.getElem?_eq_getElem hp', Array.getElem?_eq_getElem (by omega), ← hitem]
    rfl
  refine ⟨p, ?_, hsame⟩
  by_contra hlater
  have hagain : target[p]? = target[last]? := (hdone p (by omega)).trans hsame
  have := eq_of_getElem?_eq (hperm.nodup_iff.2 hdistinct) (by omega) hagain
  omega

/-- Every ordering that agrees with distinct items from `bound` on is reached by exchanges. -/
theorem exists_exchanged_eq {bound : Nat} {items target : Array α}
    (hdistinct : items.toList.Nodup) (hbound : bound ≤ items.size)
    (hperm : target.toList.Perm items.toList)
    (hdone : ∀ p, bound ≤ p → target[p]? = items[p]?) :
    ∃ choice, ChosenBelow choice bound ∧ exchanged choice bound items = target := by
  induction bound generalizing items with
  | zero =>
      refine ⟨fun _ => 0, fun k htwo hk => by omega, Array.ext_getElem? fun p => ?_⟩
      exact (hdone p (Nat.zero_le p)).symm
  | succ last ih =>
      obtain ⟨p, hp, hitem⟩ := exists_getElem?_eq hdistinct hperm (by omega) hdone
      have hmoved : ∀ q, last ≤ q → target[q]? = (items.swapIfInBounds p last)[q]? := by
        intro q hq
        rw [getElem?_swapIfInBounds (by omega) (by omega)]
        rcases Nat.lt_or_eq_of_le hq with hlt | rfl
        · rw [if_neg (by omega), if_neg (by omega)]
          exact hdone q hlt
        · rw [if_pos rfl]
          exact hitem.symm
      obtain ⟨choice, hchoice, hreached⟩ := ih (nodup_swapIfInBounds hdistinct p last)
        (le_size_swapIfInBounds hbound _ _)
        (hperm.trans (perm_swapIfInBounds items p last).symm) hmoved
      refine ⟨Function.update choice (last + 1) p, hchoice.update hp, ?_⟩
      cases last with
      | zero =>
          -- nothing is drawn below one, as the only position left is the place itself
          obtain rfl : p = 0 := Nat.le_zero.1 hp
          refine Array.ext_getElem? fun q => ?_
          cases q with
          | zero => exact hitem
          | succ q => exact (hdone (q + 1) (by omega)).symm
      | succ last =>
          rw [exchanged_update]
          exact hreached

end Keystream
