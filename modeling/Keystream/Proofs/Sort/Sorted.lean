import Keystream.Proofs.Sort.Draws
import Keystream.SplitMix
import Mathlib.Algebra.Group.Nat.Defs
import Mathlib.Order.Defs.Unbundled

/-!
# Sorting sorts

Each turn of the sort cuts the items at a pivot, and the two sides of it are sorted on their own.
The results of this module follow the turns: the items stay the same ones, a run ends early only
where a draw does, and a run that does not end early leaves the items in order. The pivots that are
drawn are arbitrary throughout.
-/

namespace Keystream

open Keystream.Partition

variable {α σ : Type} {n w : Nat} {lt gt : α → α → Bool} {pick : Nat → Draw σ Nat} {items : Array α}
  {engine : σ}

/-! ### The items stay the same ones -/

theorem toList_push_append (left right : Array α) (pivot : α) :
    (left.push pivot ++ right).toList = left.toList ++ pivot :: right.toList := by
  simp

theorem perm_cut {chosen : Nat} {split : Vector α items.size} {middle : Fin items.size}
    {left right : List α}
    (hpartition : partition? lt gt items.toVector chosen = some (split, middle))
    (hleft : left.Perm (split.toArray.extract 0 middle).toList)
    (hright : right.Perm (split.toArray.extract (middle + 1)).toList) :
    (left ++ split.get middle :: right).Perm items.toList := by
  have hcut := hleft.append (hright.cons split[middle])
  rw [toList_cut] at hcut
  exact hcut.trans (perm_of_partition?_eq_some hpartition).toArray.toList

theorem perm_rejoined {chosen : Nat} {split : Vector α items.size} {middle : Fin items.size}
    {shorter longer : Array α}
    (hpartition : partition? lt gt items.toVector chosen = some (split, middle))
    (hshorter : shorter.toList.Perm (shorterSide split middle).toList)
    (hlonger : longer.toList.Perm (longerSide split middle).toList) :
    (rejoined split middle shorter longer).toList.Perm items.toList := by
  obtain ⟨left, right, hrejoined, hleft, hright⟩ :=
    rejoined_cases (R := fun side others => side.toList.Perm others.toList) hshorter hlonger
  rw [hrejoined, toList_push_append]
  exact perm_cut hpartition hleft hright

theorem perm_sortWith : (sortWith pick lt gt items engine).items.toList.Perm items.toList := by
  induction items, engine using sortWith_induction pick lt gt with
  | few items engine hsize =>
      rw [sortWith_of_few hsize]
      exact .refl _
  | undrawn items engine reason after htwo hpick =>
      rw [sortWith_of_undrawn htwo hpick]
      exact .refl _
  | uncut items engine chosen after htwo hpick hpartition =>
      rw [sortWith_of_uncut htwo hpick hpartition]
      exact .refl _
  | halted items engine chosen after split middle reason hcut hfirst ih =>
      rw [hcut.sortWith_of_error rfl hfirst]
      exact perm_rejoined hcut.partition_eq ih (.refl _)
  | looped items engine chosen after split middle hcut hfirst ihShorter ihLonger =>
      rw [hcut.sortWith_of_ok rfl hfirst rfl]
      exact perm_rejoined hcut.partition_eq ihShorter ihLonger

theorem size_sortWith : (sortWith pick lt gt items engine).items.size = items.size :=
  perm_sortWith.length_eq

/-! ### A run ends early only where a draw does -/

/-- Some partition of at most `size` items, around a position that was drawn among them, has no
result. -/
def PartitionFails (pick : Nat → Draw σ Nat) (lt gt : α → α → Bool) (size : Nat) : Prop :=
  ∃ (segment : Array α) (start : σ) (chosen : Nat) (after : σ), 2 ≤ segment.size ∧
    segment.size ≤ size ∧ pick segment.size start = (.ok chosen, after) ∧
      partition? lt gt segment.toVector chosen = none

theorem not_partitionFails {size : Nat} (hirrefl : ∀ x, lt x x = false)
    (hpicks : PicksAmong pick size) : ¬PartitionFails pick lt gt size := by
  rintro ⟨segment, start, chosen, after, htwo, hsize, hpick, hpartition⟩
  have hchosen := hpicks _ htwo hsize _ _ _ hpick
  exact partition?_ne_none hirrefl htwo hchosen hpartition

theorem PartitionFails.mono {size larger : Nat} (hfails : PartitionFails pick lt gt size)
    (hle : size ≤ larger) : PartitionFails pick lt gt larger := by
  obtain ⟨segment, start, chosen, after, htwo, hsize, hfails⟩ := hfails
  exact ⟨segment, start, chosen, after, htwo, Nat.le_trans hsize hle, hfails⟩

/-- A draw that the run makes ends in `reason` and leaves the engine as `after`. -/
def DrawFails (pick : Nat → Draw σ Nat) (lt gt : α → α → Bool) (items : Array α) (engine : σ)
    (reason : Stop) (after : σ) : Prop :=
  ∃ len start, MakesDraw pick lt gt items engine len start ∧ pick len start = (.error reason, after)

theorem fails_of_sortWith {reason : Stop}
    (hended : (sortWith pick lt gt items engine).ended = .error reason) :
    reason = .overrun ∧ PartitionFails pick lt gt items.size ∨
      DrawFails pick lt gt items engine reason (sortWith pick lt gt items engine).engine := by
  induction items, engine using sortWith_induction pick lt gt with
  | few items engine hsize =>
      rw [sortWith_of_few hsize] at hended
      cases hended
  | undrawn items engine found after htwo hpick =>
      rw [sortWith_of_undrawn htwo hpick] at hended ⊢
      cases hended
      exact .inr ⟨items.size, engine, .first htwo, hpick⟩
  | uncut items engine chosen after htwo hpick hpartition =>
      rw [sortWith_of_uncut htwo hpick hpartition] at hended
      cases hended
      exact .inl ⟨rfl, items, engine, chosen, after, htwo, Nat.le_refl _, hpick, hpartition⟩
  | halted items engine chosen after split middle found hcut hfirst ih =>
      rw [hcut.sortWith_of_error rfl hfirst] at hended ⊢
      rcases ih hended with ⟨hreason, hfails⟩ | ⟨len, start, hmakes, hdraw⟩
      · exact .inl ⟨hreason, hfails.mono (Nat.le_of_lt (size_shorterSide_lt split middle))⟩
      · exact .inr ⟨len, start, .nested hcut hmakes, hdraw⟩
  | looped items engine chosen after split middle hcut hfirst ihShorter ihLonger =>
      rw [hcut.sortWith_of_ok rfl hfirst rfl] at hended ⊢
      rcases ihLonger hended with ⟨hreason, hfails⟩ | ⟨len, start, hmakes, hdraw⟩
      · exact .inl ⟨hreason, hfails.mono (Nat.le_of_lt (size_longerSide_lt split middle))⟩
      · exact .inr ⟨len, start, .later hcut hfirst hmakes, hdraw⟩

theorem drawFails_of_sortWith {reason : Stop} (hirrefl : ∀ x, lt x x = false)
    (hpicks : PicksAmong pick items.size)
    (hended : (sortWith pick lt gt items engine).ended = .error reason) :
    DrawFails pick lt gt items engine reason (sortWith pick lt gt items engine).engine := by
  rcases fails_of_sortWith hended with ⟨-, hfails⟩ | hdraw
  · exact absurd hfails (not_partitionFails hirrefl hpicks)
  · exact hdraw

theorem drawEnds_of_sortWith {reason : Stop} (hirrefl : ∀ x, lt x x = false)
    (hpicks : PicksAmong pick items.size)
    (hended : (sortWith pick lt gt items engine).ended = .error reason) :
    DrawEnds pick items.size reason (sortWith pick lt gt items engine).engine := by
  obtain ⟨len, start, hmakes, hdraw⟩ := drawFails_of_sortWith hirrefl hpicks hended
  exact ⟨len, start, hmakes.between.1, hmakes.between.2, hdraw⟩

/-! ### A run that does not end early leaves the items in order -/

/-- No item is below one that stands before it. -/
def Ascending (lt : α → α → Bool) (items : List α) : Prop :=
  items.Pairwise fun x y => lt y x = false

theorem ascending_of_length_lt_two {items : List α} (hlength : items.length < 2) :
    Ascending lt items := by
  refine List.pairwise_iff_getElem.2 ?_
  intro i j hi hj hij
  omega

theorem eq_of_ascending {items others : List α} (htotal : Std.Trichotomous fun x y => lt x y = true)
    (hperm : items.Perm others) (hitems : Ascending lt items) (hothers : Ascending lt others) :
    items = others := by
  refine hperm.eq_of_pairwise ?_ hitems hothers
  intro x y _ _ hyx hxy
  exact htotal.trichotomous x y (Bool.eq_false_iff.1 hxy) (Bool.eq_false_iff.1 hyx)

section Order

variable [IsStrictWeakOrder α fun x y => lt x y = true] {x y z : α}

theorem not_below_self (x : α) : lt x x = false :=
  Bool.eq_false_iff.2 (Std.Irrefl.irrefl (r := fun x y => lt x y = true) x)

theorem not_below_of_below (hxy : lt x y = true) : lt y x = false := by
  refine Bool.eq_false_iff.2 ?_
  intro hyx
  have hself : lt x x = true := IsTrans.trans (r := fun x y => lt x y = true) x y x hxy hyx
  cases hself.symm.trans (not_below_self x)

/-- In a strict weak order, not to be below is transitive. -/
theorem not_below_trans (hxy : lt x y = false) (hyz : lt y z = false) : lt x z = false := by
  refine Bool.eq_false_iff.2 ?_
  intro hxz
  have hyx : ¬lt y x = true := by
    intro hyx
    have : lt y z = true := IsTrans.trans (r := fun x y => lt x y = true) y x z hyx hxz
    rw [hyz] at this
    cases this
  have hzy : ¬lt z y = true := by
    intro hzy
    have : lt x y = true := IsTrans.trans (r := fun x y => lt x y = true) x z y hxz hzy
    rw [hxy] at this
    cases this
  have hequivalent := @IsStrictWeakOrder.incomp_trans α (fun x y => lt x y = true) _ x y z
    ⟨Bool.eq_false_iff.1 hxy, hyx⟩ ⟨Bool.eq_false_iff.1 hyz, hzy⟩
  exact hequivalent.1 hxz

theorem ascending_cut {chosen : Nat} {split : Vector α items.size} {middle : Fin items.size}
    {left right : List α} (hconverse : ∀ x y, gt x y = lt y x) (hsize : 2 ≤ items.size)
    (hpartition : partition? lt gt items.toVector chosen = some (split, middle))
    (hleft : left.Perm (split.toArray.extract 0 middle).toList)
    (hright : right.Perm (split.toArray.extract (middle + 1)).toList)
    (hleftSorted : Ascending lt left) (hrightSorted : Ascending lt right) :
    Ascending lt (left ++ split.get middle :: right) := by
  have hsides := sides_of_asymm hconverse fun _ _ => not_below_of_below
  have hparted := parted_of_partition?_eq_some hsize hpartition not_below_self hsides
  have hlow : ∀ x ∈ left, lt split[middle] x = false := by
    intro x hx
    obtain ⟨m, hm, hlt, rfl⟩ := mem_left (hleft.mem_iff.1 hx)
    exact hparted.low_of_lt m hm hlt
  have hhigh : ∀ y ∈ right, lt y split[middle] = false := by
    intro y hy
    obtain ⟨m, hm, hlt, rfl⟩ := mem_right (hright.mem_iff.1 hy)
    exact hparted.high_of_gt m hm hlt
  refine List.pairwise_append.2 ⟨hleftSorted, List.pairwise_cons.2 ⟨hhigh, hrightSorted⟩, ?_⟩
  intro x hx y hy
  rcases List.mem_cons.1 hy with rfl | hy
  · exact hlow x hx
  · exact not_below_trans (hhigh y hy) (hlow x hx)

theorem ascending_rejoined {chosen : Nat} {split : Vector α items.size} {middle : Fin items.size}
    {shorter longer : Array α} (hconverse : ∀ x y, gt x y = lt y x) (hsize : 2 ≤ items.size)
    (hpartition : partition? lt gt items.toVector chosen = some (split, middle))
    (hshorter : shorter.toList.Perm (shorterSide split middle).toList)
    (hlonger : longer.toList.Perm (longerSide split middle).toList)
    (hshorterSorted : Ascending lt shorter.toList) (hlongerSorted : Ascending lt longer.toList) :
    Ascending lt (rejoined split middle shorter longer).toList := by
  obtain ⟨left, right, hrejoined, hleft, hright⟩ :=
    rejoined_cases (R := fun side others => side.toList.Perm others.toList ∧
      Ascending lt side.toList) ⟨hshorter, hshorterSorted⟩ ⟨hlonger, hlongerSorted⟩
  rw [hrejoined, toList_push_append]
  exact ascending_cut hconverse hsize hpartition hleft.1 hright.1 hleft.2 hright.2

theorem ascending_sortWith (hconverse : ∀ x y, gt x y = lt y x)
    (hended : (sortWith pick lt gt items engine).ended = .ok ()) :
    Ascending lt (sortWith pick lt gt items engine).items.toList := by
  induction completed_of_ended hended with
  | few hsize =>
      rw [sortWith_of_few hsize]
      exact ascending_of_length_lt_two hsize
  | cut hcut hfirst hshorter hlonger ihShorter ihLonger =>
      rw [hcut.sortWith_of_ok rfl hfirst rfl] at hended ⊢
      exact ascending_rejoined hconverse hcut.two_le hcut.partition_eq perm_sortWith perm_sortWith
        (ihShorter hfirst) (ihLonger hended)

end Order

/-! ### Sorting with the draws of an engine -/

section Engines

variable [Engine σ w] {budget : Nat}

theorem sort_eq_sortWith (hfits : 2 ≤ items.size → items.size < 2 ^ w) :
    sort budget lt items engine gt = sortWith (Draw.index budget) lt gt items engine := by
  rw [sort]
  split
  · rename_i hsize
    rw [sortWith_of_few hsize]
  · rename_i hsize
    rw [Draw.lengthWord_eq (hfits (Nat.le_of_not_lt hsize))]

/-- No run is refused and none leaves the items, so an early end is that of a starved draw. -/
theorem starved_of_sort {reason : Stop} (hirrefl : ∀ x, lt x x = false)
    (hfits : 2 ≤ items.size → items.size < 2 ^ w)
    (hended : (sort budget lt items engine gt).ended = .error reason) :
    reason = .starved ∧ DrawFails (Draw.index budget) lt gt items engine .starved
      (sort budget lt items engine gt).engine := by
  rw [sort_eq_sortWith hfits] at hended ⊢
  by_cases hsize : items.size < 2
  · rw [sortWith_of_few hsize] at hended
    cases hended
  · have hfits' := hfits (Nat.le_of_not_lt hsize)
    have hfails := drawFails_of_sortWith hirrefl (picksAmong_index hfits') hended
    obtain ⟨len, start, hmakes, hindex⟩ := hfails
    have hbetween := hmakes.between
    obtain rfl := Draw.eq_starved_of_index (by omega) (by omega) hindex
    exact ⟨rfl, len, start, hmakes, hindex⟩

theorem ended_sort (hirrefl : ∀ x, lt x x = false) (hfits : 2 ≤ items.size → items.size < 2 ^ w)
    (hdrawn : (sort budget lt items engine gt).ended ≠ .error .starved) :
    (sort budget lt items engine gt).ended = .ok () := by
  rcases hended : (sort budget lt items engine gt).ended with reason | done
  · obtain ⟨rfl, -⟩ := starved_of_sort hirrefl hfits hended
    exact absurd hended hdrawn
  · rfl

/-- Every draw that a sort of the items makes gives a position. -/
def DrawsReturn (budget : Nat) (lt gt : α → α → Bool) (items : Array α) (engine : σ) : Prop :=
  ∀ len start, MakesDraw (Draw.index budget) lt gt items engine len start →
    ∃ chosen after, Draw.index budget len start = (.ok chosen, after)

theorem ended_sort_iff (hirrefl : ∀ x, lt x x = false)
    (hfits : 2 ≤ items.size → items.size < 2 ^ w) :
    (sort budget lt items engine gt).ended = .ok () ↔ DrawsReturn budget lt gt items engine := by
  constructor
  · intro hended len start hmakes
    rw [sort_eq_sortWith hfits] at hended
    exact hmakes.exists_ok hended
  · intro hreturn
    refine ended_sort hirrefl hfits ?_
    intro hstarved
    obtain ⟨-, len, start, hmakes, hindex⟩ := starved_of_sort hirrefl hfits hstarved
    obtain ⟨chosen, after, hok⟩ := hreturn len start hmakes
    cases hindex.symm.trans hok

theorem ascending_sort [IsStrictWeakOrder α fun x y => lt x y = true]
    (hconverse : ∀ x y, gt x y = lt y x) (hfits : 2 ≤ items.size → items.size < 2 ^ w)
    (hended : (sort budget lt items engine gt).ended = .ok ()) :
    Ascending lt (sort budget lt items engine gt).items.toList := by
  rw [sort_eq_sortWith hfits] at hended ⊢
  exact ascending_sortWith hconverse hended

theorem perm_sort (hfits : 2 ≤ items.size → items.size < 2 ^ w) :
    (sort budget lt items engine gt).items.toList.Perm items.toList := by
  rw [sort_eq_sortWith hfits]
  exact perm_sortWith

/-- **Sorting sorts.** The items stay the same ones, and if all draws give a position, no item ends
up below one that stands before it. Where different items are always ordered, the outcome is the
same for all engines and budgets with which they do. -/
theorem sort_sorts {α σ : Type} {w : Nat} [Engine σ w] (lt gt : α → α → Bool)
    (hconverse : ∀ x y, gt x y = lt y x) [IsStrictWeakOrder α fun x y => lt x y = true]
    (budget : Nat) (items : Array α) (engine : σ) (hfits : 2 ≤ items.size → items.size < 2 ^ w) :
    let run := sort budget lt items engine gt
    run.items.Perm items ∧
      (∀ reason, run.ended = .error reason → reason = .starved ∧
        DrawFails (Draw.index budget) lt gt items engine .starved run.engine) ∧
      (DrawsReturn budget lt gt items engine →
        run.ended = .ok () ∧
          (∀ a b : Fin run.items.size, a < b → lt run.items[b] run.items[a] = false) ∧
          ((Std.Trichotomous fun x y => lt x y = true) →
            ∀ {τ : Type} {v : Nat} [Engine τ v] (other : Nat) (start : τ),
              (2 ≤ items.size → items.size < 2 ^ v) → DrawsReturn other lt gt items start →
              (sort other lt items start gt).items = run.items)) := by
  intro run
  have hperm : run.items.toList.Perm items.toList := perm_sort hfits
  refine ⟨.of_toList_perm hperm, fun reason => starved_of_sort not_below_self hfits, ?_⟩
  intro hreturn
  have hended : run.ended = .ok () := (ended_sort_iff not_below_self hfits).2 hreturn
  have hascending : Ascending lt run.items.toList := ascending_sort hconverse hfits hended
  refine ⟨hended, ?_, ?_⟩
  · intro a b hab
    exact List.pairwise_iff_getElem.1 hascending a b a.isLt b.isLt hab
  · intro htotal τ v _ other start hfits' hreturn'
    have hended' := (ended_sort_iff not_below_self hfits').2 hreturn'
    have hpermOther : (sort other lt items start gt).items.toList.Perm items.toList :=
      perm_sort hfits'
    have hsame := eq_of_ascending htotal (hpermOther.trans hperm.symm)
      (ascending_sort hconverse hfits' hended') hascending
    exact Array.toList_inj.1 hsame

/-- A run with repeated items, pivots included. -/
theorem sort_sorts_splitMix :
    let lt : Nat → Nat → Bool := fun x y => decide (x < y)
    let gt : Nat → Nat → Bool := fun x y => decide (x > y)
    let items : Array Nat := #[3, 1, 2, 1, 3]
    DrawsReturn 8 lt gt items SplitMix.initial ∧
      (sort 8 lt items SplitMix.initial gt).ended = .ok () ∧
      ∀ {τ : Type} {v : Nat} [Engine τ v] (other : Nat) (start : τ), 5 < 2 ^ v →
        DrawsReturn other lt gt items start →
        (sort other lt items start gt).items = #[1, 1, 2, 3, 3] := by
  intro lt gt items
  have hirrefl : ∀ x, lt x x = false := fun x => decide_eq_false (Nat.lt_irrefl x)
  have horder : IsStrictWeakOrder Nat fun x y => lt x y = true := by
    refine { irrefl := ?_, trans := ?_, incomp_trans := ?_ }
    · intro x hlt
      exact Nat.lt_irrefl x (of_decide_eq_true hlt)
    · intro x y z hxy hyz
      exact decide_eq_true (Nat.lt_trans (of_decide_eq_true hxy) (of_decide_eq_true hyz))
    · intro x y z hxy hyz
      simp only [lt, decide_eq_true_eq] at hxy hyz ⊢
      omega
  have hfits : 2 ≤ items.size → items.size < 2 ^ 64 := by decide
  have hok : (sort 8 lt items SplitMix.initial gt).ended = .ok () := by decide +kernel
  have hreturn : DrawsReturn 8 lt gt items SplitMix.initial := (ended_sort_iff hirrefl hfits).1 hok
  obtain ⟨-, -, hsorts⟩ := sort_sorts lt gt (fun _ _ => rfl) 8 items SplitMix.initial hfits
  obtain ⟨hended, -, hsame⟩ := hsorts hreturn
  refine ⟨hreturn, hended, ?_⟩
  intro τ v _ other start hfits' hreturn'
  have htotal : Std.Trichotomous fun x y => lt x y = true := by
    refine ⟨?_⟩
    intro x y hxy hyx
    simp only [lt, decide_eq_true_eq] at hxy hyx
    omega
  rw [hsame htotal other start (fun _ => hfits') hreturn']
  decide +kernel

end Engines

end Keystream
