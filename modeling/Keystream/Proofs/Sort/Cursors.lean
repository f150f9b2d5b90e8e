import Keystream.Proofs.Sort.Draws
import Keystream.Proofs.Sort.Sorted
import Mathlib.Logic.Relation

/-!
# The cursors of a partition

The upward scan of a partition has no end of its own, and the downward cursor is also moved after an
exchange. That no position outside the items is read rests on the pivot alone: it waits at the last
position, it is not below itself, and no exchange reaches it. Nothing else is asked of the
comparison, which need not be an order at all.

A partition is taken apart here into turns of at most one comparison each. The cursors are integers,
so that one that leaves the items on either side can be told, and every position is checked before
it is read.
-/

namespace Keystream

namespace Partition

variable {α : Type} {n : Nat} {lt gt : α → α → Bool} {items : Vector α n} {pivot : α}

/-! ### Turns -/

def Inside (n : Nat) (position : Int) : Prop :=
  0 ≤ position ∧ position < n

instance (n : Nat) (position : Int) : Decidable (Inside n position) :=
  inferInstanceAs (Decidable (_ ∧ _))

theorem Inside.toNat_lt {position : Int} (hinside : Inside n position) : position.toNat < n := by
  have hlower := hinside.1
  have hupper := hinside.2
  omega

def at? (items : Vector α n) (position : Int) : Option α :=
  if h : Inside n position then some (items.get ⟨position.toNat, h.toNat_lt⟩) else none

def exchanged? (items : Vector α n) (i j : Int) : Option (Vector α n) :=
  if h : Inside n i ∧ Inside n j then
    some (items.swap i.toNat j.toNat h.1.toNat_lt h.2.toNat_lt)
  else
    none

/-- A partition between two of its turns. The pivot is at the last position. -/
structure Stage (α : Type) (n : Nat) where
  items : Vector α n
  i : Int
  j : Int
  upward : Bool

inductive Turn (α : Type) (n : Nat) where
  | goesOn (next : Stage α n)
  | meets

/-- A scan moves on or stops, and when both have stopped, the items at the cursors are exchanged. -/
def Stage.turn? (lt gt : α → α → Bool) (stage : Stage α n) : Option (Turn α n) :=
  if stage.upward then do
    let item ← at? stage.items stage.i
    let pivot ← at? stage.items (n - 1)
    if lt item pivot then
      return .goesOn { stage with i := stage.i + 1 }
    else
      return .goesOn { stage with upward := false }
  else if stage.i < stage.j then do
    let item ← at? stage.items stage.j
    let pivot ← at? stage.items (n - 1)
    if gt item pivot then
      return .goesOn { stage with j := stage.j - 1 }
    else do
      let items ← exchanged? stage.items stage.i stage.j
      return .goesOn ⟨items, stage.i + 1, stage.j - 1, true⟩
  else
    return .meets

def start? (items : Vector α n) (chosen : Nat) : Option (Stage α n) := do
  let items ← exchanged? items chosen (n - 1)
  return ⟨items, 0, n - 2, true⟩

def Stage.finish? (stage : Stage α n) : Option (Vector α n × Int) := do
  let items ← exchanged? stage.items stage.i (n - 1)
  return (items, stage.i)

def Reaches (lt gt : α → α → Bool) : Stage α n → Stage α n → Prop :=
  Relation.ReflTransGen fun stage next => stage.turn? lt gt = some (.goesOn next)

theorem at?_eq {position : Nat} (hposition : position < n) :
    at? items position = some items[position] := by
  have hinside : Inside n position := ⟨by omega, by omega⟩
  rw [at?, dif_pos hinside]
  rfl

theorem exchanged?_eq {i j : Nat} (hi : i < n) (hj : j < n) :
    exchanged? items i j = some (items.swap i j) := by
  have hinside : Inside n i ∧ Inside n j := ⟨⟨by omega, by omega⟩, by omega, by omega⟩
  rw [exchanged?, dif_pos hinside]
  rfl

section Turns

variable {stage : Stage α n} {item : α}

theorem turn?_of_below (hup : stage.upward = true) (hitem : at? stage.items stage.i = some item)
    (hlast : at? stage.items (n - 1) = some pivot) (hbelow : lt item pivot = true) :
    stage.turn? lt gt = some (.goesOn { stage with i := stage.i + 1 }) := by
  rw [Stage.turn?, if_pos hup, hitem, hlast]
  exact if_pos hbelow

theorem turn?_of_not_below (hup : stage.upward = true)
    (hitem : at? stage.items stage.i = some item)
    (hlast : at? stage.items (n - 1) = some pivot) (hbelow : lt item pivot = false) :
    stage.turn? lt gt = some (.goesOn { stage with upward := false }) := by
  rw [Stage.turn?, if_pos hup, hitem, hlast]
  exact if_neg (Bool.eq_false_iff.1 hbelow)

theorem turn?_of_above (hdown : stage.upward = false) (hapart : stage.i < stage.j)
    (hitem : at? stage.items stage.j = some item)
    (hlast : at? stage.items (n - 1) = some pivot) (habove : gt item pivot = true) :
    stage.turn? lt gt = some (.goesOn { stage with j := stage.j - 1 }) := by
  rw [Stage.turn?, if_neg (Bool.eq_false_iff.1 hdown), if_pos hapart, hitem, hlast]
  exact if_pos habove

theorem turn?_of_not_above {exchanged : Vector α n} (hdown : stage.upward = false)
    (hapart : stage.i < stage.j) (hitem : at? stage.items stage.j = some item)
    (hlast : at? stage.items (n - 1) = some pivot) (habove : gt item pivot = false)
    (hexchanged : exchanged? stage.items stage.i stage.j = some exchanged) :
    stage.turn? lt gt = some (.goesOn ⟨exchanged, stage.i + 1, stage.j - 1, true⟩) := by
  rw [Stage.turn?, if_neg (Bool.eq_false_iff.1 hdown), if_pos hapart, hitem, hlast, hexchanged]
  exact if_neg (Bool.eq_false_iff.1 habove)

theorem turn?_of_met (hdown : stage.upward = false) (hmet : stage.j ≤ stage.i) :
    stage.turn? lt gt = some .meets := by
  rw [Stage.turn?, if_neg (Bool.eq_false_iff.1 hdown), if_neg (Int.not_lt.2 hmet)]
  rfl

end Turns

/-! ### No turn leaves the items -/

/-- The pivot is in its place, the upward cursor no further than there, the downward one below. -/
structure Guarded (pivot : α) (stage : Stage α n) : Prop where
  at_last : at? stage.items (n - 1) = some pivot
  i_nonneg : 0 ≤ stage.i
  i_le_last : stage.i ≤ n - 1
  j_nonneg : 0 ≤ stage.j
  j_lt_last : stage.j < n - 1

theorem exists_at?_eq (items : Vector α n) {position : Int} (hinside : Inside n position) :
    ∃ item, at? items position = some item := by
  rw [at?, dif_pos hinside]
  exact ⟨_, rfl⟩

theorem exists_exchanged?_eq (items : Vector α n) {i j : Int} (hi : 0 ≤ i ∧ i < n - 1)
    (hj : 0 ≤ j ∧ j < n - 1) :
    ∃ exchanged, exchanged? items i j = some exchanged ∧
      at? exchanged (n - 1) = at? items (n - 1) := by
  obtain ⟨i, rfl⟩ := Int.eq_ofNat_of_zero_le hi.1
  obtain ⟨j, rfl⟩ := Int.eq_ofNat_of_zero_le hj.1
  have hlast : (n : Int) - 1 = ((n - 1 : Nat) : Int) := by omega
  refine ⟨items.swap i j, exchanged?_eq _ _, ?_⟩
  rw [hlast, at?_eq (by omega), at?_eq (by omega), Vector.getElem_swap_of_ne (by omega) (by omega)]

theorem Guarded.turn? {stage : Stage α n} (hstage : Guarded pivot stage)
    (hpivot : lt pivot pivot = false) :
    stage.turn? lt gt = some .meets ∨
      ∃ next, stage.turn? lt gt = some (.goesOn next) ∧ Guarded pivot next := by
  obtain ⟨hlast, hi, hile, hj, hjlt⟩ := hstage
  rcases hphase : stage.upward with down | up
  · rcases Int.lt_or_le stage.i stage.j with hapart | hmet
    · obtain ⟨item, hitem⟩ := exists_at?_eq stage.items (⟨hj, by omega⟩ : Inside n stage.j)
      rcases habove : gt item pivot with notAbove | above
      · have hilt : 0 ≤ stage.i ∧ stage.i < n - 1 := ⟨hi, by omega⟩
        obtain ⟨exchanged, hexchanged, hkept⟩ := exists_exchanged?_eq stage.items hilt ⟨hj, hjlt⟩
        refine .inr ⟨_, turn?_of_not_above hphase hapart hitem hlast habove hexchanged, ?_⟩
        exact ⟨hkept.trans hlast, (by omega : 0 ≤ stage.i + 1), (by omega : stage.i + 1 ≤ n - 1),
          (by omega : 0 ≤ stage.j - 1), (by omega : stage.j - 1 < n - 1)⟩
      · refine .inr ⟨_, turn?_of_above hphase hapart hitem hlast habove, ?_⟩
        exact ⟨hlast, hi, hile, (by omega : 0 ≤ stage.j - 1), (by omega : stage.j - 1 < n - 1)⟩
    · exact .inl (turn?_of_met hphase hmet)
  · obtain ⟨item, hitem⟩ := exists_at?_eq stage.items (⟨hi, by omega⟩ : Inside n stage.i)
    rcases hbelow : lt item pivot with notBelow | below
    · refine .inr ⟨_, turn?_of_not_below hphase hitem hlast hbelow, ?_⟩
      exact ⟨hlast, hi, hile, hj, hjlt⟩
    · -- the item is below the pivot, and so it is not the pivot at the end of the scan
      have hne : stage.i ≠ n - 1 := by
        intro heq
        rw [heq, hlast] at hitem
        rw [← Option.some.inj hitem, hpivot] at hbelow
        cases hbelow
      refine .inr ⟨_, turn?_of_below hphase hitem hlast hbelow, ?_⟩
      exact ⟨hlast, (by omega : 0 ≤ stage.i + 1), (by omega : stage.i + 1 ≤ n - 1), hj, hjlt⟩

theorem Guarded.reaches {start stage : Stage α n} (hstart : Guarded pivot start)
    (hpivot : lt pivot pivot = false) (hreaches : Reaches lt gt start stage) :
    Guarded pivot stage := by
  induction hreaches with
  | refl => exact hstart
  | tail _ hturn hguarded =>
      rcases hguarded.turn? hpivot with hmeets | ⟨next, hnext, hguardedNext⟩
      · cases hturn.symm.trans hmeets
      · cases hturn.symm.trans hnext
        exact hguardedNext

/-! ### The turns lead to the result of the partition -/

theorem reaches_of_scanUp? {i k : Nat} (hlast : at? items (n - 1) = some pivot)
    (hscan : scanUp? (lt · pivot) items i = some k) (j : Int) :
    Reaches lt gt ⟨items, i, j, true⟩ ⟨items, k, j, true⟩ := by
  fun_induction scanUp? (lt · pivot) items i with
  | case1 i hi hbelow ih =>
      exact .head (turn?_of_below rfl (at?_eq hi) hlast hbelow) (ih hscan)
  | case2 i hi hbelow =>
      cases hscan
      exact .refl
  | case3 i hi => cases hscan

theorem reaches_of_scanDown? {i j k : Nat} (hlast : at? items (n - 1) = some pivot)
    (hscan : scanDown? (gt · pivot) items i j = some k) :
    Reaches lt gt ⟨items, i, j, false⟩ ⟨items, i, k, false⟩ := by
  fun_induction scanDown? (gt · pivot) items i j with
  | case1 =>
      cases hscan
      exact .refl
  | case2 j hij hjn habove ih =>
      have hapart : (i : Int) < ((j + 1 : Nat) : Int) := by omega
      have hturn : Stage.turn? lt gt ⟨items, i, (j + 1 : Nat), false⟩ =
          some (.goesOn ⟨items, i, (j + 1 : Nat) - 1, false⟩) :=
        turn?_of_above rfl hapart (at?_eq hjn) hlast habove
      have hj : ((j + 1 : Nat) : Int) - 1 = j := by omega
      rw [hj] at hturn
      exact .head hturn (ih hscan)
  | case3 j hij hjn habove =>
      cases hscan
      exact .refl
  | case4 j hij hjn => cases hscan
  | case5 j hij =>
      cases hscan
      exact .refl

theorem Scans.reaches {last i j i' j' : Nat} (hn : n = last + 1)
    (hscans : Scans (lt · pivot) (gt · pivot) items last i j i' j')
    (hlast : at? items (n - 1) = some pivot) :
    Reaches lt gt ⟨items, i, j, true⟩ ⟨items, i', j', false⟩ := by
  have hi' : i' < n := by
    have hle := hscans.up_le
    omega
  have hup : Reaches lt gt ⟨items, i, j, true⟩ ⟨items, i', j, true⟩ :=
    reaches_of_scanUp? hlast hscans.up j
  have hturn : Stage.turn? lt gt ⟨items, i', j, true⟩ = some (.goesOn ⟨items, i', j, false⟩) :=
    turn?_of_not_below rfl (at?_eq hi') hlast (hscans.stopped_up hi')
  exact (hup.tail hturn).trans (reaches_of_scanDown? hlast hscans.down)

theorem Swept.at_last {last i j : Nat} {low high : α → Prop} (hn : n = last + 1)
    (hswept : Swept low high pivot items last i j) : at? items (n - 1) = some pivot := by
  have hlast : (n : Int) - 1 = last := by omega
  rw [hlast, at?_eq hswept.last_lt, hswept.getElem_last]

/-- The step down after an exchange does not stop at zero, as the cursors have not met then. -/
theorem reaches_of_sweep? {last i j middle : Nat} {met : Vector α n} (hn : n = last + 1)
    (hpivot : lt pivot pivot = false)
    (hswept : Swept (fun _ => True) (fun _ => True) pivot items last i j)
    (hsweep : sweep? (lt · pivot) (gt · pivot) items i j = some (met, middle)) :
    ∃ k : Nat, k ≤ middle ∧ Reaches lt gt ⟨items, i, j, true⟩ ⟨met, middle, k, false⟩ := by
  fun_induction sweep? (lt · pivot) (gt · pivot) items i j with
  | case1 | case2 | case5 => cases hsweep
  | case3 items i j i' hup j' hdown hmet =>
      cases hsweep
      have hscans := hswept.scans_of hup hdown hpivot
      exact ⟨j', hmet, hscans.reaches hn (hswept.at_last hn)⟩
  | case4 items i j i' hup j' hdown hmet hin ih =>
      have hscans := hswept.scans_of hup hdown hpivot
      have hswap := hswept.swap (sides_trivial _ _) hscans (Nat.lt_of_not_le hmet) hin.1 hin.2
      obtain ⟨k, hk, hrest⟩ := ih hswap hsweep
      have hapart : (i' : Int) < (j' : Int) := by omega
      have hturn : Stage.turn? lt gt ⟨items, i', j', false⟩ =
          some (.goesOn ⟨items.swap i' j' hin.1 hin.2, (i' : Int) + 1, (j' : Int) - 1, true⟩) :=
        turn?_of_not_above rfl hapart (at?_eq hin.2) (hswept.at_last hn)
          (hscans.stopped_down hin.2 (Nat.lt_of_not_le hmet)) (exchanged?_eq hin.1 hin.2)
      have hi : (i' : Int) + 1 = ((i' + 1 : Nat) : Int) := by omega
      have hj : (j' : Int) - 1 = ((j' - 1 : Nat) : Int) := by omega
      rw [hi, hj] at hturn
      exact ⟨k, hk, ((hscans.reaches hn (hswept.at_last hn)).tail hturn).trans hrest⟩

/-- At every stage of a partition the cursors stand among the items, and the next turn finds every
position it needs. All turns lead to one stage, where the scans have met. -/
structure StaysInside (lt gt : α → α → Bool) (items : Vector α n) (chosen : Nat)
    (start met : Stage α n) : Prop where
  start_eq : start? items chosen = some start
  cursors : ∀ stage, Reaches lt gt start stage →
    (0 ≤ stage.i ∧ stage.i ≤ n - 1) ∧ 0 ≤ stage.j ∧ stage.j < n - 1
  turns : ∀ stage, Reaches lt gt start stage → stage.turn? lt gt ≠ none
  ends : ∀ stage, Reaches lt gt start stage → Reaches lt gt stage met
  meets : met.turn? lt gt = some .meets
  result : ∃ split, ∃ middle : Fin n, met.finish? = some (split, (middle : Int)) ∧
    partition? lt gt items chosen = some (split, middle)

theorem Reaches.of_met {start stage met : Stage α n} (hmet : Reaches lt gt start met)
    (hmeets : met.turn? lt gt = some .meets) (hreaches : Reaches lt gt start stage) :
    Reaches lt gt stage met := by
  have hunique : Relator.RightUnique fun stage next : Stage α n =>
      stage.turn? lt gt = some (.goesOn next) := by
    intro stage next other hnext hother
    cases hnext.symm.trans hother
    rfl
  rcases Relation.ReflTransGen.total_of_right_unique hunique hreaches hmet with hon | hback
  · exact hon
  · cases hback using Relation.ReflTransGen.head_induction_on with
    | refl => exact .refl
    | head hturn _ => cases hmeets.symm.trans hturn

theorem start?_eq {chosen : Nat} (hn : 2 ≤ n) (hchosen : chosen < n) (hlast : n - 1 < n) :
    start? items chosen =
      some ⟨items.swap chosen (n - 1) hchosen hlast, (0 : Nat), (n - 2 : Nat), true⟩ := by
  have hcast : (n : Int) - 1 = ((n - 1 : Nat) : Int) := by omega
  have hbefore : (n : Int) - 2 = ((n - 2 : Nat) : Int) := by omega
  rw [start?, hcast, hbefore, exchanged?_eq hchosen hlast]
  rfl

theorem finish?_eq (items : Vector α n) (middle : Fin n) (hlast : n - 1 < n) (j : Int)
    (upward : Bool) :
    Stage.finish? ⟨items, (middle : Nat), j, upward⟩ =
      some (items.swap middle (n - 1) middle.isLt hlast, (middle : Int)) := by
  have hcast : (n : Int) - 1 = ((n - 1 : Nat) : Int) := by omega
  rw [Stage.finish?, hcast, exchanged?_eq middle.isLt hlast]
  rfl

theorem exists_staysInside {chosen : Nat} (hn : 2 ≤ n) (hchosen : chosen < n)
    (hirrefl : lt items[chosen] items[chosen] = false) :
    ∃ start met, StaysInside lt gt items chosen start met := by
  have hlast : n - 1 < n := by omega
  have hsize : n = n - 1 + 1 := by omega
  obtain ⟨split, middle, hpartition, -⟩ :=
    partition?_eq_some hn hchosen hirrefl (sides_trivial _ _)
  obtain ⟨met, hsweep, rfl⟩ := exists_sweep?_eq_some hchosen hlast hpartition
  have hswept := swept_start (fun _ => True) (fun _ => True) items hn hchosen hlast
  obtain ⟨k, hk, hreaches⟩ := reaches_of_sweep? hsize hirrefl hswept hsweep
  have hmeets : Stage.turn? lt gt ⟨met, (middle : Nat), k, false⟩ = some .meets :=
    turn?_of_met rfl (Int.ofNat_le.2 hk)
  have hstart : Guarded items[chosen]
      ⟨items.swap chosen (n - 1), (0 : Nat), (n - 2 : Nat), true⟩ :=
    ⟨hswept.at_last hsize, (by omega : (0 : Int) ≤ (0 : Nat)),
      (by omega : ((0 : Nat) : Int) ≤ n - 1), (by omega : (0 : Int) ≤ (n - 2 : Nat)),
      (by omega : ((n - 2 : Nat) : Int) < n - 1)⟩
  refine ⟨_, _, start?_eq hn hchosen hlast, ?_, ?_, fun stage => hreaches.of_met hmeets, hmeets,
    met.swap middle (n - 1), middle, finish?_eq met middle hlast k false, hpartition⟩
  · intro stage hstage
    have hguarded := hstart.reaches hirrefl hstage
    exact ⟨⟨hguarded.i_nonneg, hguarded.i_le_last⟩, hguarded.j_nonneg, hguarded.j_lt_last⟩
  · intro stage hstage hnone
    rcases (hstart.reaches hirrefl hstage).turn? hirrefl with hmeets | ⟨next, hnext, -⟩
    · cases hnone.symm.trans hmeets
    · cases hnone.symm.trans hnext

end Partition

/-! ### Sorting with any comparison -/

/-- **Sorting needs no order.** As long as no item is below itself, a partition stays among the
items and ends, and a sort keeps the items, ends early only in a draw, and draws fewer positions
than there are items. -/
theorem sort_stays_inside {α : Type} (lt gt : α → α → Bool) (hirrefl : ∀ x, lt x x = false) :
    (∀ {n : Nat} (items : Vector α n) (chosen : Nat), 2 ≤ n → chosen < n →
      ∃ start met, Partition.StaysInside lt gt items chosen start met) ∧
    (∀ {σ : Type} (pick : Nat → Draw σ Nat) (items : Array α) (engine : σ),
      PicksAmong pick items.size →
        let run := sortWith pick lt gt items engine
        run.items.Perm items ∧
        (∀ reason, run.ended = .error reason → DrawEnds pick items.size reason run.engine) ∧
        ((∀ len start reason after, pick len start ≠ (.error reason, after)) →
          run.ended = .ok ()) ∧
        ∃ bounds, sortWith (Draw.recorded pick) lt gt items (engine, []) = run.withBounds bounds ∧
          BoundsWithin items.size bounds) ∧
    ∀ {σ : Type} {w : Nat} [Engine σ w] (budget : Nat) (items : Array α) (engine : σ),
      (sort budget lt items engine gt).items.Perm items ∧
        (sort budget lt items engine gt).ended ≠ .error .overrun := by
  refine ⟨?_, ?_, ?_⟩
  · intro n items chosen hn hchosen
    exact Partition.exists_staysInside hn hchosen (hirrefl _)
  · intro σ pick items engine hpicks run
    have hends : ∀ reason, run.ended = .error reason →
        DrawEnds pick items.size reason run.engine := fun reason =>
      drawEnds_of_sortWith hirrefl hpicks
    refine ⟨.of_toList_perm perm_sortWith, hends, ?_, exists_bounds_sortWith _ _ _ _ _ []⟩
    intro hdrawn
    rcases hended : run.ended with reason | done
    · obtain ⟨len, start, -, -, hdraw⟩ := hends reason hended
      exact absurd hdraw (hdrawn _ _ _ _)
    · rfl
  · intro σ w _ budget items engine
    by_cases hfits : 2 ≤ items.size → items.size < 2 ^ w
    · refine ⟨.of_toList_perm (perm_sort hfits), ?_⟩
      intro hended
      cases (starved_of_sort hirrefl hfits hended).1
    · obtain ⟨htwo, hwide⟩ := Classical.not_imp.1 hfits
      rw [sort, if_neg (Nat.not_lt.2 htwo), Draw.lengthWord_of_ge (Nat.le_of_not_lt hwide)]
      exact ⟨.refl _, fun hended => by cases hended⟩

/-- Numbers compared in a circle, where each is below the next modulo 3. -/
theorem sort_stays_inside_circle :
    let lt : Nat → Nat → Bool := fun x y => decide ((x + 1) % 3 = y % 3)
    let gt : Nat → Nat → Bool := fun x y => lt y x
    let pick : Nat → Draw Nat Nat := fun len drawn => (.ok (drawn % len), drawn + 1)
    (lt 0 1 ∧ lt 1 2 ∧ lt 2 0) ∧
      (∃ start met, Partition.StaysInside lt gt #v[2, 0, 1, 1, 0] 3 start met) ∧
      (sortWith pick lt gt #[2, 0, 1, 1, 0] 7).ended = .ok () ∧
      (sortWith pick lt gt #[2, 0, 1, 1, 0] 7).items.Perm #[2, 0, 1, 1, 0] ∧
      (sort 8 lt #[2, 0, 1, 1, 0] SplitMix.initial gt).ended ≠ .error .overrun := by
  intro lt gt pick
  have hirrefl : ∀ x, lt x x = false := by
    intro x
    refine decide_eq_false ?_
    omega
  have hpicks : PicksAmong pick 5 := by
    intro len htwo hlen engine chosen after hpick
    cases hpick
    exact Nat.mod_lt _ (by omega)
  obtain ⟨hpartitions, hruns, hsorts⟩ := sort_stays_inside lt gt hirrefl
  obtain ⟨hperm, -, hok, -⟩ := hruns pick #[2, 0, 1, 1, 0] 7 hpicks
  refine ⟨by decide, hpartitions #v[2, 0, 1, 1, 0] 3 (by decide) (by decide), hok ?_, hperm,
    (hsorts 8 #[2, 0, 1, 1, 0] SplitMix.initial).2⟩
  intro len start reason after hpick
  cases hpick

end Keystream
