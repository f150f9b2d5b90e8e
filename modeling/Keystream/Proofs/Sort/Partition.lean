import Keystream.Sort.Partition
import Mathlib.Order.Lattice.Nat

/-!
# Where a partition puts the items

The pivot waits at the last position, where the upward scan stops at the latest, while the scans
exchange items below it. Before the upward scan all items are such as it passes or receives, after
the downward scan all are such as that one passes or receives. Nothing but the pivot not being below
itself is needed for the scans to stay among the items, and nothing at all for the items to stay the
same ones. If of two items at most one is below the other, no item that was passed or received is on
the wrong side of the pivot, however the items compare among themselves.
-/

namespace Keystream

namespace Partition

variable {α : Type} {n : Nat} {below above : α → Bool} {low high : α → Prop} {pivot : α}
  {items : Vector α n} {last i i' j j' : Nat}

/-! ### The scans -/

theorem scanUp?_eq_some (hlast : last < n) (hsentinel : below items[last] = false)
    (hi : i ≤ last) :
    ∃ k, ∃ hk : k ≤ last, scanUp? below items i = some k ∧ i ≤ k ∧ below items[k] = false ∧
      ∀ m (hm : m < n), i ≤ m → m < k → below items[m] = true := by
  fun_induction scanUp? below items i with
  | case1 i hin hbelow ih =>
      have hne : i ≠ last := by
        rintro rfl
        rw [hsentinel] at hbelow
        cases hbelow
      obtain ⟨k, hk, hscan, hik, hstop, hpassed⟩ := ih (by omega)
      refine ⟨k, hk, hscan, by omega, hstop, ?_⟩
      intro m hm him hmk
      rcases Nat.eq_or_lt_of_le him with rfl | hlt
      · exact hbelow
      · exact hpassed m hm hlt hmk
  | case2 i hin hbelow =>
      refine ⟨i, hi, rfl, Nat.le_refl i, Bool.eq_false_iff.2 hbelow, ?_⟩
      intro m hm him hmi
      omega
  | case3 i hin => omega

theorem scanDown?_eq_some (above : α → Bool) (items : Vector α n) (i : Nat) (hj : j < n) :
    ∃ k, ∃ hk : k ≤ j, scanDown? above items i j = some k ∧ (k ≤ i ∨ above items[k] = false) ∧
      ∀ m (hm : m < n), k < m → m ≤ j → above items[m] = true := by
  fun_induction scanDown? above items i j with
  | case1 =>
      refine ⟨0, Nat.le_refl 0, rfl, .inl (Nat.zero_le i), ?_⟩
      intro m hm hlt hle
      omega
  | case2 j hij hjn habove ih =>
      obtain ⟨k, hk, hscan, hstop, hpassed⟩ := ih (by omega)
      refine ⟨k, by omega, hscan, hstop, ?_⟩
      intro m hm hlt hle
      rcases Nat.eq_or_lt_of_le hle with rfl | hmj
      · exact habove
      · exact hpassed m hm hlt (by omega)
  | case3 j hij hjn habove =>
      refine ⟨j + 1, Nat.le_refl _, rfl, .inr (Bool.eq_false_iff.2 habove), ?_⟩
      intro m hm hlt hle
      omega
  | case4 j hij hjn => omega
  | case5 j hij =>
      refine ⟨j + 1, Nat.le_refl _, rfl, .inl (by omega), ?_⟩
      intro m hm hlt hle
      omega

/-! ### The sweep -/

/-- An item that a scan passes stays behind it, and one that stops a scan goes behind the other. -/
structure Sides (below above : α → Bool) (low high : α → Prop) : Prop where
  low_of_below : ∀ x, below x = true → low x
  low_of_not_above : ∀ x, above x = false → low x
  high_of_above : ∀ x, above x = true → high x
  high_of_not_below : ∀ x, below x = false → high x

theorem sides_trivial (below above : α → Bool) :
    Sides below above (fun _ => True) fun _ => True :=
  ⟨fun _ _ => trivial, fun _ _ => trivial, fun _ _ => trivial, fun _ _ => trivial⟩

theorem sides_of_asymm {lt gt : α → α → Bool} (hconverse : ∀ x y, gt x y = lt y x)
    (hasymm : ∀ x y, lt x y = true → lt y x = false) (pivot : α) :
    Sides (lt · pivot) (gt · pivot) (fun x => lt pivot x = false) fun x => lt x pivot = false where
  low_of_below x := hasymm x pivot
  low_of_not_above x hnot := (hconverse x pivot).symm.trans hnot
  high_of_above x habove := hasymm pivot x ((hconverse x pivot).symm.trans habove)
  high_of_not_below _ hnot := hnot

/-- The invariant of a sweep: between `i` and `j` nothing has been looked at. -/
structure Swept (low high : α → Prop) (pivot : α) (items : Vector α n) (last i j : Nat) :
    Prop where
  last_lt : last < n
  getElem_last : items[last] = pivot
  le_succ : i ≤ j + 1
  lt_last : j < last
  low_of_lt : ∀ m (hm : m < n), m < i → low items[m]
  high_of_gt : ∀ m (hm : m < n), j < m → m < last → high items[m]

structure Scans (below above : α → Bool) (items : Vector α n) (last i j i' j' : Nat) : Prop where
  up : scanUp? below items i = some i'
  down : scanDown? above items i' j = some j'
  le_up : i ≤ i'
  up_le : i' ≤ last
  down_le : j' ≤ j
  passed_up : ∀ m (hm : m < n), i ≤ m → m < i' → below items[m] = true
  stopped_up : ∀ hi : i' < n, below items[i'] = false
  passed_down : ∀ m (hm : m < n), j' < m → m ≤ j → above items[m] = true
  stopped_down : ∀ hj : j' < n, i' < j' → above items[j'] = false

theorem Swept.scans (above : α → Bool) (hswept : Swept low high pivot items last i j)
    (hpivot : below pivot = false) :
    ∃ i' j', Scans below above items last i j i' j' := by
  have hlast := hswept.last_lt
  have hle := hswept.le_succ
  have hlt := hswept.lt_last
  have hsentinel : below items[last] = false := by
    rw [hswept.getElem_last]
    exact hpivot
  obtain ⟨i', hi', hup, hle', hstopUp, hpassedUp⟩ :=
    scanUp?_eq_some hlast hsentinel (by omega : i ≤ last)
  obtain ⟨j', hj', hdown, hstopDown, hpassedDown⟩ :=
    scanDown?_eq_some above items i' (by omega : j < n)
  refine ⟨i', j', hup, hdown, hle', hi', hj', hpassedUp, fun _ => hstopUp, hpassedDown, ?_⟩
  intro hj'n hapart
  rcases hstopDown with hmet | hstop
  · omega
  · exact hstop

theorem Swept.scans_of (hswept : Swept low high pivot items last i j)
    (hup : scanUp? below items i = some i') (hdown : scanDown? above items i' j = some j')
    (hpivot : below pivot = false) : Scans below above items last i j i' j' := by
  obtain ⟨k, l, hscans⟩ := hswept.scans above hpivot
  obtain rfl := Option.some.inj (hup.symm.trans hscans.up)
  obtain rfl := Option.some.inj (hdown.symm.trans hscans.down)
  exact hscans

theorem Swept.swap (hswept : Swept low high pivot items last i j)
    (hsides : Sides below above low high) (hscans : Scans below above items last i j i' j')
    (hapart : i' < j') (hi'n : i' < n) (hj'n : j' < n) :
    Swept low high pivot (items.swap i' j' hi'n hj'n) last (i' + 1) (j' - 1) := by
  have hlast := hswept.last_lt
  have hjlast := hswept.lt_last
  have hle := hscans.down_le
  refine ⟨hlast, ?_, by omega, by omega, ?_, ?_⟩
  · rw [Vector.getElem_swap_of_ne (by omega) (by omega)]
    exact hswept.getElem_last
  · intro m hm hmi
    by_cases hstop : m = i'
    · subst hstop
      rw [Vector.getElem_swap_left]
      exact hsides.low_of_not_above _ (hscans.stopped_down hj'n hapart)
    · rw [Vector.getElem_swap_of_ne hstop (by omega)]
      by_cases hpassed : i ≤ m
      · exact hsides.low_of_below _ (hscans.passed_up m hm hpassed (by omega))
      · exact hswept.low_of_lt m hm (by omega)
  · intro m hm hjm hmlast
    by_cases hstop : m = j'
    · subst hstop
      rw [Vector.getElem_swap_right]
      exact hsides.high_of_not_below _ (hscans.stopped_up hi'n)
    · rw [Vector.getElem_swap_of_ne (by omega) hstop]
      by_cases hpassed : m ≤ j
      · exact hsides.high_of_above _ (hscans.passed_down m hm (by omega) hpassed)
      · exact hswept.high_of_gt m hm (by omega) hmlast

/-- The end of a sweep: the upward scan stands where the pivot belongs. -/
structure Met (low high : α → Prop) (pivot : α) (items : Vector α n) (last middle : Nat) :
    Prop where
  last_lt : last < n
  getElem_last : items[last] = pivot
  le_last : middle ≤ last
  low_of_lt : ∀ m (hm : m < n), m < middle → low items[m]
  high_of_ge : ∀ m (hm : m < n), middle ≤ m → m ≤ last → high items[m]

theorem Swept.met (hswept : Swept low high pivot items last i j)
    (hsides : Sides below above low high) (hpivot : below pivot = false)
    (hscans : Scans below above items last i j i' j') (hmet : j' ≤ i') :
    Met low high pivot items last i' := by
  refine ⟨hswept.last_lt, hswept.getElem_last, hscans.up_le, ?_, ?_⟩
  · intro m hm hmi
    by_cases hpassed : i ≤ m
    · exact hsides.low_of_below _ (hscans.passed_up m hm hpassed hmi)
    · exact hswept.low_of_lt m hm (by omega)
  · intro m hm him hmlast
    rcases Nat.eq_or_lt_of_le him with rfl | hlt
    · exact hsides.high_of_not_below _ (hscans.stopped_up hm)
    rcases Nat.eq_or_lt_of_le hmlast with rfl | hbefore
    · rw [hswept.getElem_last]
      exact hsides.high_of_not_below _ hpivot
    · by_cases hpassed : m ≤ j
      · exact hsides.high_of_above _ (hscans.passed_down m hm (by omega) hpassed)
      · exact hswept.high_of_gt m hm (by omega) hbefore

theorem sweep?_eq_some (hsides : Sides below above low high) (hpivot : below pivot = false)
    (hswept : Swept low high pivot items last i j) :
    ∃ met middle, sweep? below above items i j = some (met, middle) ∧
      Met low high pivot met last middle := by
  fun_induction sweep? below above items i j with
  | case1 items i j hup =>
      obtain ⟨i', j', hscans⟩ := hswept.scans above hpivot
      rw [hscans.up] at hup
      cases hup
  | case2 items i j i' hup hdown =>
      obtain ⟨k, j', hscans⟩ := hswept.scans above hpivot
      obtain rfl := Option.some.inj (hup.symm.trans hscans.up)
      rw [hscans.down] at hdown
      cases hdown
  | case3 items i j i' hup j' hdown hmet =>
      have hscans := hswept.scans_of hup hdown hpivot
      exact ⟨items, i', rfl, hswept.met hsides hpivot hscans hmet⟩
  | case4 items i j i' hup j' hdown hmet hin ih =>
      have hscans := hswept.scans_of hup hdown hpivot
      exact ih (hswept.swap hsides hscans (by omega) hin.1 hin.2)
  | case5 items i j i' hup j' hdown hmet hout =>
      have hscans := hswept.scans_of hup hdown hpivot
      have hlast := hswept.last_lt
      have hjlast := hswept.lt_last
      have hle := hscans.down_le
      omega

theorem perm_of_sweep?_eq_some {met : Vector α n} {middle : Nat}
    (hsweep : sweep? below above items i j = some (met, middle)) : met.Perm items := by
  fun_induction sweep? below above items i j with
  | case1 items i j hup => cases hsweep
  | case2 items i j i' hup hdown => cases hsweep
  | case3 items i j i' hup j' hdown hmet =>
      cases hsweep
      exact .refl met
  | case4 items i j i' hup j' hdown hmet hin ih => exact (ih hsweep).trans (Vector.swap_perm _ _)
  | case5 items i j i' hup j' hdown hmet hout => cases hsweep

/-! ### The partition -/

/-- The pivot stands at `middle`, between the two sides. -/
structure Parted (low high : α → Prop) (pivot : α) (items : Vector α n) (middle : Fin n) :
    Prop where
  getElem_middle : items[middle] = pivot
  low_of_lt : ∀ m (hm : m < n), m < middle → low items[m]
  high_of_gt : ∀ m (hm : m < n), middle < m → high items[m]

theorem Met.swap {middle : Nat} (hmet : Met low high pivot items last middle)
    (hmiddle : middle < n) (hlast : n = last + 1) :
    Parted low high pivot (items.swap middle last hmiddle hmet.last_lt) ⟨middle, hmiddle⟩ := by
  refine ⟨?_, ?_, ?_⟩
  · rw [Fin.getElem_fin, Vector.getElem_swap_left]
    exact hmet.getElem_last
  · intro m hm hlt
    have hle := hmet.le_last
    have hbefore : m < middle := hlt
    rw [Vector.getElem_swap_of_ne (by omega) (by omega)]
    exact hmet.low_of_lt m hm hlt
  · intro m hm hlt
    have hafter : middle < m := hlt
    by_cases hend : m = last
    · subst hend
      rw [Vector.getElem_swap_right]
      exact hmet.high_of_ge middle hmiddle (Nat.le_refl _) (by omega)
    · rw [Vector.getElem_swap_of_ne (by omega) hend]
      exact hmet.high_of_ge m hm (by omega) (by omega)

end Partition

open Keystream.Partition

variable {α : Type} {n chosen : Nat} {lt gt : α → α → Bool} {items : Vector α n}

theorem swept_start (low high : α → Prop) (items : Vector α n) (hn : 2 ≤ n) (hchosen : chosen < n)
    (hlast : n - 1 < n) :
    Swept low high items[chosen] (items.swap chosen (n - 1) hchosen hlast) (n - 1) 0 (n - 2) := by
  refine ⟨hlast, Vector.getElem_swap_right hchosen hlast, by omega, by omega, ?_, ?_⟩
  · intro m hm hlt
    omega
  · intro m hm hgt hlast
    omega

theorem partition?_eq_some {low high : α → Prop} (hn : 2 ≤ n) (hchosen : chosen < n)
    (hirrefl : lt items[chosen] items[chosen] = false)
    (hsides : Sides (lt · items[chosen]) (gt · items[chosen]) low high) :
    ∃ split middle, partition? lt gt items chosen = some (split, middle) ∧
      Parted low high items[chosen] split middle := by
  have hpivot : (items.swap chosen (n - 1))[n - 1] = items[chosen] :=
    Vector.getElem_swap_right hchosen (by omega)
  obtain ⟨met, middle, hsweep, hmet⟩ :=
    sweep?_eq_some hsides hirrefl (swept_start low high items hn hchosen (by omega))
  have hle := hmet.le_last
  have hmiddle : middle < n := by omega
  refine ⟨met.swap middle (n - 1), ⟨middle, hmiddle⟩, ?_, hmet.swap hmiddle (by omega)⟩
  simp only [partition?, dif_pos hchosen, hpivot, hsweep, dif_pos hmiddle]

theorem partition?_ne_none (hirrefl : ∀ x, lt x x = false) (hn : 2 ≤ n) (hchosen : chosen < n) :
    partition? lt gt items chosen ≠ none := by
  obtain ⟨split, middle, hpartition, -⟩ :=
    partition?_eq_some hn hchosen (hirrefl _) (sides_trivial _ _)
  rw [hpartition]
  exact Option.some_ne_none _

theorem lt_of_partition?_eq_some {split : Vector α n} {middle : Fin n}
    (hpartition : partition? lt gt items chosen = some (split, middle)) : chosen < n := by
  rw [partition?] at hpartition
  split at hpartition
  · assumption
  · cases hpartition

theorem parted_of_partition?_eq_some {low high : α → α → Prop} {split : Vector α n} {middle : Fin n}
    (hn : 2 ≤ n) (hpartition : partition? lt gt items chosen = some (split, middle))
    (hirrefl : ∀ x, lt x x = false)
    (hsides : ∀ pivot, Sides (lt · pivot) (gt · pivot) (low pivot) (high pivot)) :
    Parted (low split[middle]) (high split[middle]) split[middle] split middle := by
  have hchosen := lt_of_partition?_eq_some hpartition
  obtain ⟨split', middle', hpartition', hparted⟩ :=
    partition?_eq_some hn hchosen (hirrefl items[chosen]) (hsides items[chosen])
  rw [hpartition] at hpartition'
  cases hpartition'
  rw [hparted.getElem_middle]
  exact hparted

theorem exists_sweep?_eq_some {split : Vector α n} {middle : Fin n} (hchosen : chosen < n)
    (hlast : n - 1 < n) (hpartition : partition? lt gt items chosen = some (split, middle)) :
    ∃ met, sweep? (lt · items[chosen]) (gt · items[chosen])
        (items.swap chosen (n - 1) hchosen hlast) 0 (n - 2) = some (met, (middle : Nat)) ∧
      met.swap middle (n - 1) middle.isLt hlast = split := by
  have hpivot : (items.swap chosen (n - 1))[n - 1] = items[chosen] :=
    Vector.getElem_swap_right hchosen hlast
  simp only [partition?, dif_pos hchosen, hpivot] at hpartition
  split at hpartition
  · cases hpartition
  · rename_i met i hsweep
    split at hpartition
    · cases hpartition
      exact ⟨met, hsweep, rfl⟩
    · cases hpartition

/-- A partition with a result keeps the items, whatever the comparisons. -/
theorem perm_of_partition?_eq_some {split : Vector α n} {middle : Fin n}
    (hpartition : partition? lt gt items chosen = some (split, middle)) : split.Perm items := by
  have hchosen := lt_of_partition?_eq_some hpartition
  obtain ⟨met, hsweep, rfl⟩ := exists_sweep?_eq_some hchosen (by omega) hpartition
  exact ((Vector.swap_perm _ _).trans (perm_of_sweep?_eq_some hsweep)).trans
    (Vector.swap_perm _ _)

/-! ### On the right side of the pivot -/

theorem not_below_self_of_asymm (hasymm : ∀ x y, lt x y = true → lt y x = false) (x : α) :
    lt x x = false := by
  refine Bool.eq_false_iff.2 ?_
  intro hself
  cases hself.symm.trans (hasymm x x hself)

/-- **A partition separates.** Let no two items be below each other, and an item be above those that
are below it. Around any item a partition has a result: no item before that one is above it, and
none behind it is below it. -/
theorem partition_separates {α : Type} {n : Nat} (lt gt : α → α → Bool)
    (hconverse : ∀ x y, gt x y = lt y x) (hasymm : ∀ x y, lt x y = true → lt y x = false)
    (hn : 2 ≤ n) (items : Vector α n) (chosen : Fin n) :
    ∃ split middle, partition? lt gt items chosen = some (split, middle) ∧
      split.get middle = items.get chosen ∧
      (∀ m < middle, gt (split.get m) (items.get chosen) = false) ∧
      (∀ m, middle < m → lt (split.get m) (items.get chosen) = false) ∧
      split.Perm items ∧
      ∀ [LinearOrder α], (∀ x y, lt x y = true ↔ x < y) →
        (∀ m < middle, split.get m ≤ items.get chosen) ∧
          ∀ m, middle < m → items.get chosen ≤ split.get m := by
  obtain ⟨split, middle, hpartition, hparted⟩ :=
    partition?_eq_some hn chosen.isLt (not_below_self_of_asymm hasymm _)
      (sides_of_asymm hconverse hasymm items[chosen.val])
  have hbefore : ∀ m < middle, lt (items.get chosen) (split.get m) = false := fun m =>
    hparted.low_of_lt m m.isLt
  have hbehind : ∀ m, middle < m → lt (split.get m) (items.get chosen) = false := fun m =>
    hparted.high_of_gt m m.isLt
  refine ⟨split, middle, hpartition, hparted.getElem_middle, ?_, hbehind,
    perm_of_partition?_eq_some hpartition, ?_⟩
  · intro m hm
    rw [hconverse]
    exact hbefore m hm
  intro _ horder
  have hle : ∀ {x y}, lt x y = false → y ≤ x := by
    intro x y hnot
    refine le_of_not_gt ?_
    rw [← horder, hnot]
    exact Bool.false_ne_true
  exact ⟨fun m hm => hle (hbefore m hm), fun m hm => hle (hbehind m hm)⟩

/-- Numbers compared in a circle, with one among them that does not compare; numbers in order. -/
theorem partition_separates_circle :
    let lt : Option Nat → Option Nat → Bool := fun x y =>
      x.any fun x => y.any fun y => decide ((x + 1) % 3 = y % 3)
    let gt := fun x y => lt y x
    let circle : Vector (Option Nat) 6 := #v[some 2, none, some 0, some 1, some 1, some 0]
    let numbers : Vector Nat 5 := #v[5, 3, 9, 3, 7]
    (lt (some 0) (some 1) ∧ lt (some 1) (some 2) ∧ lt (some 2) (some 0)) ∧
      (∃ split middle, partition? lt gt circle 3 = some (split, middle) ∧
        split.get middle = some 1 ∧ (∀ m < middle, gt (split.get m) (some 1) = false) ∧
        (∀ m, middle < m → lt (split.get m) (some 1) = false) ∧ split.Perm circle) ∧
      ∃ split middle, partition? (fun x y => decide (x < y)) (fun x y => decide (x > y)) numbers 0 =
          some (split, middle) ∧
        (∀ m < middle, split.get m ≤ 5) ∧ ∀ m, middle < m → 5 ≤ split.get m := by
  intro lt gt circle numbers
  have hcircle : ∀ x y, lt x y = true → lt y x = false := by
    intro x y hbelow
    rcases x with _ | x
    · cases hbelow
    rcases y with _ | y
    · cases hbelow
    have hnext : (x + 1) % 3 = y % 3 := of_decide_eq_true hbelow
    have hback : ¬(y + 1) % 3 = x % 3 := by omega
    exact decide_eq_false hback
  have hnumbers : ∀ x y : Nat, decide (x < y) = true → decide (y < x) = false := by
    intro x y hbelow
    exact decide_eq_false (Nat.lt_asymm (of_decide_eq_true hbelow))
  refine ⟨by decide, ?_, ?_⟩
  · obtain ⟨split, middle, hpartition, hmiddle, hbefore, hbehind, hperm, -⟩ :=
      partition_separates lt gt (fun _ _ => rfl) hcircle (by decide) circle 3
    exact ⟨split, middle, hpartition, hmiddle, hbefore, hbehind, hperm⟩
  · obtain ⟨split, middle, hpartition, -, -, -, -, hlinear⟩ :=
      partition_separates (fun x y => decide (x < y)) (fun x y => decide (x > y)) (fun _ _ => rfl)
        hnumbers (by decide) numbers 0
    exact ⟨split, middle, hpartition, hlinear fun x y => decide_eq_true_iff⟩

/-! ### Cutting at the pivot -/

theorem toList_left (split : Vector α n) (middle : Fin n) :
    (split.toArray.extract 0 middle).toList = split.toList.take middle := by
  rw [Array.toList_extract, List.extract_eq_take_drop, List.drop_zero, Nat.sub_zero]
  rfl

theorem toList_right (split : Vector α n) (middle : Fin n) :
    (split.toArray.extract (middle + 1)).toList = split.toList.drop (middle + 1) := by
  rw [Array.toList_extract, List.extract_eq_take_drop]
  apply List.take_of_length_le
  simp

theorem toList_cut (split : Vector α n) (middle : Fin n) :
    (split.toArray.extract 0 middle).toList ++
      split[middle] :: (split.toArray.extract (middle + 1)).toList = split.toList := by
  have hmiddle : (middle : Nat) < split.toList.length := by
    rw [Vector.length_toList]
    exact middle.isLt
  have hcut := List.take_append_drop middle split.toList
  rw [List.drop_eq_getElem_cons hmiddle, Vector.getElem_toList] at hcut
  rw [toList_left, toList_right]
  exact hcut

theorem mem_left {split : Vector α n} {middle : Fin n} {x : α}
    (hx : x ∈ (split.toArray.extract 0 middle).toList) :
    ∃ m, ∃ hm : m < n, m < middle ∧ split[m] = x := by
  have hmiddle := middle.isLt
  rw [toList_left, List.mem_take_iff_getElem] at hx
  obtain ⟨m, hm, rfl⟩ := hx
  rw [Vector.length_toList] at hm
  exact ⟨m, by omega, by omega, (Vector.getElem_toList _).symm⟩

theorem mem_right {split : Vector α n} {middle : Fin n} {x : α}
    (hx : x ∈ (split.toArray.extract (middle + 1)).toList) :
    ∃ m, ∃ hm : m < n, middle < m ∧ split[m] = x := by
  rw [toList_right, List.mem_drop_iff_getElem] at hx
  obtain ⟨m, hm, rfl⟩ := hx
  rw [Vector.length_toList] at hm
  exact ⟨middle + 1 + m, by omega, by omega, (Vector.getElem_toList _).symm⟩

theorem size_left_add_size_right (split : Vector α n) (middle : Fin n) :
    (split.toArray.extract 0 middle).size + (split.toArray.extract (middle + 1)).size + 1 = n := by
  have hmiddle := middle.isLt
  simp only [Array.size_extract, Vector.size_toArray]
  omega

end Keystream
