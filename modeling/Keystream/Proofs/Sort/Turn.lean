import Keystream.Proofs.Sort.Partition
import Keystream.Sort

/-!
# One turn of the sort

A sort goes around in a loop. A turn of it draws a pivot, cuts the items there, hands the shorter
side to a nested call and goes on with the longer one. Which of the two sides is the shorter one
matters for the order in which things happen and for nothing else, so a turn is told here by its
shorter and its longer side. What stands around the items of a loop is only carried along, so going
on with the longer side is like sorting it on its own. What is known of runs is proved by induction
on their turns.
-/

namespace Keystream

variable {α σ : Type}

/-! ### The two sides -/

section Sides

variable {n : Nat} (split : Vector α n) (middle : Fin n)

/-- The side that a nested call sorts. Of two sides of one length it is the right one. -/
def shorterSide : Array α :=
  if (split.toArray.extract 0 middle).size < (split.toArray.extract (middle + 1)).size then
    split.toArray.extract 0 middle
  else
    split.toArray.extract (middle + 1)

def longerSide : Array α :=
  if (split.toArray.extract 0 middle).size < (split.toArray.extract (middle + 1)).size then
    split.toArray.extract (middle + 1)
  else
    split.toArray.extract 0 middle

def shorterStart : Nat :=
  if (split.toArray.extract 0 middle).size < (split.toArray.extract (middle + 1)).size then 0
  else middle + 1

def longerStart : Nat :=
  if (split.toArray.extract 0 middle).size < (split.toArray.extract (middle + 1)).size then
    middle + 1
  else 0

/-- The pivot between its two sides, which have been rearranged. -/
def rejoined (shorter longer : Array α) : Array α :=
  if (split.toArray.extract 0 middle).size < (split.toArray.extract (middle + 1)).size then
    shorter.push (split.get middle) ++ longer
  else
    longer.push (split.get middle) ++ shorter

/-- What is in place before the longer side, once the shorter one is sorted. -/
def beforeLonger (before shorter : Array α) : Array α :=
  if (split.toArray.extract 0 middle).size < (split.toArray.extract (middle + 1)).size then
    before ++ shorter.push (split.get middle)
  else
    before

def behindLonger (shorter behind : Array α) : Array α :=
  if (split.toArray.extract 0 middle).size < (split.toArray.extract (middle + 1)).size then
    behind
  else
    #[split.get middle] ++ shorter ++ behind

theorem beforeLonger_append_behindLonger (before shorter longer behind : Array α) :
    beforeLonger split middle before shorter ++ longer ++ behindLonger split middle shorter behind =
      before ++ rejoined split middle shorter longer ++ behind := by
  rw [beforeLonger, behindLonger, rejoined]
  split
  · simp
  · simp

theorem sides_cases :
    (shorterStart split middle = 0 ∧ (shorterSide split middle).size = middle ∧
        longerStart split middle = middle + 1 ∧
        (longerSide split middle).size + middle + 1 = n ∧
        ∀ shorter longer, rejoined split middle shorter longer =
          shorter.push (split.get middle) ++ longer) ∨
      shorterStart split middle = middle + 1 ∧
        (shorterSide split middle).size + middle + 1 = n ∧
        longerStart split middle = 0 ∧ (longerSide split middle).size = middle ∧
        ∀ shorter longer, rejoined split middle shorter longer =
          longer.push (split.get middle) ++ shorter := by
  have hmiddle := middle.isLt
  have hleft : (split.toArray.extract 0 middle).size = middle := by
    simp only [Array.size_extract, Vector.size_toArray]
    omega
  have hsum := size_left_add_size_right split middle
  simp only [shorterStart, shorterSide, longerStart, longerSide, rejoined]
  split
  · exact .inl ⟨rfl, hleft, rfl, by omega, fun _ _ => rfl⟩
  · exact .inr ⟨rfl, by omega, rfl, hleft, fun _ _ => rfl⟩

theorem size_shorterSide_add_size_longerSide :
    (shorterSide split middle).size + (longerSide split middle).size + 1 = n := by
  rcases sides_cases split middle with
    ⟨-, hshorter, -, hlonger, -⟩ | ⟨-, hshorter, -, hlonger, -⟩
  · omega
  · omega

theorem size_shorterSide_lt : (shorterSide split middle).size < n := by
  have hsum := size_shorterSide_add_size_longerSide split middle
  omega

theorem size_longerSide_lt : (longerSide split middle).size < n := by
  have hsum := size_shorterSide_add_size_longerSide split middle
  omega

theorem size_shorterSide_le_size_longerSide :
    (shorterSide split middle).size ≤ (longerSide split middle).size := by
  rw [shorterSide, longerSide]
  split
  · omega
  · omega

variable {split middle}

theorem rejoined_cases {R : Array α → Array α → Prop} {shorter longer : Array α}
    (hshorter : R shorter (shorterSide split middle))
    (hlonger : R longer (longerSide split middle)) :
    ∃ left right, rejoined split middle shorter longer = left.push (split.get middle) ++ right ∧
      R left (split.toArray.extract 0 middle) ∧ R right (split.toArray.extract (middle + 1)) := by
  rw [shorterSide] at hshorter
  rw [longerSide] at hlonger
  rw [rejoined]
  split
  · rename_i hless
    rw [if_pos hless] at hshorter hlonger
    exact ⟨shorter, longer, rfl, hshorter, hlonger⟩
  · rename_i hless
    rw [if_neg hless] at hshorter hlonger
    exact ⟨longer, shorter, rfl, hlonger, hshorter⟩

end Sides

/-! ### Turns -/

variable {lt gt : α → α → Bool} {pick : Nat → Draw σ Nat} {before items behind : Array α}
  {engine : σ}
  {chosen : Nat} {after : σ} {split : Vector α items.size} {middle : Fin items.size}
  {first second : Arrangement α σ} {reason : Stop}

/-- A call has drawn a position and cut its items at the one that stood there. -/
structure Cut (pick : Nat → Draw σ Nat) (lt gt : α → α → Bool) (items : Array α) (engine : σ)
    (chosen : Nat) (after : σ) (split : Vector α items.size) (middle : Fin items.size) : Prop where
  two_le : 2 ≤ items.size
  pick_eq : pick items.size engine = (.ok chosen, after)
  partition_eq : partition? lt gt items.toVector chosen = some (split, middle)

theorem sortLoop_of_few (hsize : items.size < 2) :
    sortLoop pick lt gt before items behind engine =
      .finished (before ++ items ++ behind) engine := by
  rw [sortLoop, if_pos hsize]

theorem sortLoop_of_undrawn (htwo : 2 ≤ items.size)
    (hpick : pick items.size engine = (.error reason, after)) :
    sortLoop pick lt gt before items behind engine =
      .stopped (before ++ items ++ behind) after reason := by
  rw [sortLoop, if_neg (Nat.not_lt.2 htwo), hpick]

theorem sortLoop_of_uncut (htwo : 2 ≤ items.size)
    (hpick : pick items.size engine = (.ok chosen, after))
    (hpartition : partition? lt gt items.toVector chosen = none) :
    sortLoop pick lt gt before items behind engine =
      .stopped (before ++ items ++ behind) after .overrun := by
  rw [sortLoop, if_neg (Nat.not_lt.2 htwo), hpick]
  simp only [hpartition]

theorem Cut.sortLoop_of_error (hcut : Cut pick lt gt items engine chosen after split middle)
    (hfirst : sortWith pick lt gt (shorterSide split middle) after = first)
    (hended : first.ended = .error reason) :
    sortLoop pick lt gt before items behind engine =
      { first with items :=
          before ++ rejoined split middle first.items (longerSide split middle) ++ behind } := by
  subst hfirst
  rw [sortWith, shorterSide] at hended
  rw [sortLoop, if_neg (Nat.not_lt.2 hcut.two_le), hcut.pick_eq, sortWith, shorterSide, longerSide]
  simp only [hcut.partition_eq, rejoined, Arrangement.among]
  split
  · rename_i hless
    rw [if_pos hless] at hended
    simp only [hended, Array.push_eq_append, Array.append_assoc]
    rfl
  · rename_i hless
    rw [if_neg hless] at hended
    simp only [hended, Array.append_assoc]
    rfl

theorem Cut.sortLoop_of_ok (hcut : Cut pick lt gt items engine chosen after split middle)
    (hfirst : sortWith pick lt gt (shorterSide split middle) after = first)
    (hended : first.ended = .ok ()) :
    sortLoop pick lt gt before items behind engine =
      sortLoop pick lt gt (beforeLonger split middle before first.items) (longerSide split middle)
        (behindLonger split middle first.items behind) first.engine := by
  subst hfirst
  rw [sortWith, shorterSide] at hended
  rw [sortLoop, if_neg (Nat.not_lt.2 hcut.two_le), hcut.pick_eq, sortWith, shorterSide, longerSide]
  simp only [hcut.partition_eq, beforeLonger, behindLonger]
  split
  · rename_i hless
    rw [if_pos hless] at hended
    simp only [hended]
    rfl
  · rename_i hless
    rw [if_neg hless] at hended
    simp only [hended]
    rfl

/-- What stands around the items is only carried along by the loop. -/
theorem sortLoop_eq (before items behind : Array α) (engine : σ) :
    sortLoop pick lt gt before items behind engine =
      (sortWith pick lt gt items engine).among before behind := by
  induction hsize : items.size using Nat.strongRecOn generalizing before items behind engine with
  | ind size ih =>
      subst hsize
      rw [sortWith]
      rcases Nat.lt_or_ge items.size 2 with hfew | htwo
      · rw [sortLoop_of_few hfew, sortLoop_of_few hfew]
        simp [Arrangement.among, Arrangement.finished]
      rcases hpick : pick items.size engine with ⟨reason | chosen, after⟩
      · rw [sortLoop_of_undrawn htwo hpick, sortLoop_of_undrawn htwo hpick]
        simp [Arrangement.among, Arrangement.stopped]
      rcases hpartition : partition? lt gt items.toVector chosen with _ | ⟨split, middle⟩
      · rw [sortLoop_of_uncut htwo hpick hpartition, sortLoop_of_uncut htwo hpick hpartition]
        simp [Arrangement.among, Arrangement.stopped]
      have hcut : Cut pick lt gt items engine chosen after split middle := ⟨htwo, hpick, hpartition⟩
      rcases hended : (sortWith pick lt gt (shorterSide split middle) after).ended with _ | done
      · rw [hcut.sortLoop_of_error rfl hended, hcut.sortLoop_of_error rfl hended]
        simp [Arrangement.among]
      · have hless := size_longerSide_lt split middle
        rw [hcut.sortLoop_of_ok rfl hended, hcut.sortLoop_of_ok rfl hended, ih _ hless _ _ _ _ rfl,
          ih _ hless _ _ _ _ rfl]
        simp only [Arrangement.among, beforeLonger_append_behindLonger, Array.empty_append,
          Array.append_empty]

theorem sortWith_of_few (hsize : items.size < 2) :
    sortWith pick lt gt items engine = .finished items engine := by
  rw [sortWith, sortLoop_of_few hsize]
  simp

theorem sortWith_of_undrawn (htwo : 2 ≤ items.size)
    (hpick : pick items.size engine = (.error reason, after)) :
    sortWith pick lt gt items engine = .stopped items after reason := by
  rw [sortWith, sortLoop_of_undrawn htwo hpick]
  simp

theorem sortWith_of_uncut (htwo : 2 ≤ items.size)
    (hpick : pick items.size engine = (.ok chosen, after))
    (hpartition : partition? lt gt items.toVector chosen = none) :
    sortWith pick lt gt items engine = .stopped items after .overrun := by
  rw [sortWith, sortLoop_of_uncut htwo hpick hpartition]
  simp

theorem Cut.sortWith_of_error (hcut : Cut pick lt gt items engine chosen after split middle)
    (hfirst : sortWith pick lt gt (shorterSide split middle) after = first)
    (hended : first.ended = .error reason) :
    sortWith pick lt gt items engine =
      { first with items := rejoined split middle first.items (longerSide split middle) } := by
  rw [sortWith, hcut.sortLoop_of_error hfirst hended]
  simp

theorem Cut.sortWith_of_ok (hcut : Cut pick lt gt items engine chosen after split middle)
    (hfirst : sortWith pick lt gt (shorterSide split middle) after = first)
    (hended : first.ended = .ok ())
    (hsecond : sortWith pick lt gt (longerSide split middle) first.engine = second) :
    sortWith pick lt gt items engine =
      { second with items := rejoined split middle first.items second.items } := by
  rw [sortWith, hcut.sortLoop_of_ok hfirst hended, sortLoop_eq, hsecond]
  simp only [Arrangement.among, beforeLonger_append_behindLonger, Array.empty_append,
    Array.append_empty]

/-- Induction on the turns of a run, where the loop goes on as a run over the longer side. -/
theorem sortWith_induction (pick : Nat → Draw σ Nat) (lt gt : α → α → Bool)
    {motive : Array α → σ → Prop}
    (few : ∀ items engine, items.size < 2 → motive items engine)
    (undrawn : ∀ items engine reason after, 2 ≤ items.size →
      pick items.size engine = (.error reason, after) → motive items engine)
    (uncut : ∀ items engine chosen after, 2 ≤ items.size →
      pick items.size engine = (.ok chosen, after) →
      partition? lt gt items.toVector chosen = none → motive items engine)
    (halted : ∀ items engine chosen after split middle reason,
      Cut pick lt gt items engine chosen after split middle →
      (sortWith pick lt gt (shorterSide split middle) after).ended = .error reason →
      motive (shorterSide split middle) after → motive items engine)
    (looped : ∀ items engine chosen after split middle,
      Cut pick lt gt items engine chosen after split middle →
      (sortWith pick lt gt (shorterSide split middle) after).ended = .ok () →
      motive (shorterSide split middle) after →
      motive (longerSide split middle)
        (sortWith pick lt gt (shorterSide split middle) after).engine → motive items engine)
    (items : Array α) (engine : σ) : motive items engine := by
  induction hsize : items.size using Nat.strongRecOn generalizing items engine with
  | _ size ih =>
      subst hsize
      rcases Nat.lt_or_ge items.size 2 with hfew | htwo
      · exact few items engine hfew
      rcases hpick : pick items.size engine with ⟨reason | chosen, after⟩
      · exact undrawn items engine reason after htwo hpick
      rcases hpartition : partition? lt gt items.toVector chosen with _ | ⟨split, middle⟩
      · exact uncut items engine chosen after htwo hpick hpartition
      have hshorter := ih _ (size_shorterSide_lt split middle) (shorterSide split middle) after rfl
      rcases hended : (sortWith pick lt gt (shorterSide split middle) after).ended with reason | _
      · exact halted items engine chosen after split middle reason ⟨htwo, hpick, hpartition⟩ hended
          hshorter
      · exact looped items engine chosen after split middle ⟨htwo, hpick, hpartition⟩ hended
          hshorter (ih _ (size_longerSide_lt split middle) _ _ rfl)

/-- The turns of a run that does not end early. -/
inductive Completed (pick : Nat → Draw σ Nat) (lt gt : α → α → Bool) : Array α → σ → Prop
  | few {items : Array α} {engine : σ} (hsize : items.size < 2) : Completed pick lt gt items engine
  | cut {items : Array α} {engine : σ} {chosen : Nat} {after : σ} {split : Vector α items.size}
      {middle : Fin items.size} (hcut : Cut pick lt gt items engine chosen after split middle)
      (hfirst : (sortWith pick lt gt (shorterSide split middle) after).ended = .ok ())
      (hshorter : Completed pick lt gt (shorterSide split middle) after)
      (hlonger : Completed pick lt gt (longerSide split middle)
        (sortWith pick lt gt (shorterSide split middle) after).engine) :
      Completed pick lt gt items engine

theorem completed_of_ended (hended : (sortWith pick lt gt items engine).ended = .ok ()) :
    Completed pick lt gt items engine := by
  induction items, engine using sortWith_induction pick lt gt with
  | few items engine hsize => exact .few hsize
  | undrawn items engine reason after htwo hpick =>
      rw [sortWith_of_undrawn htwo hpick] at hended
      cases hended
  | uncut items engine chosen after htwo hpick hpartition =>
      rw [sortWith_of_uncut htwo hpick hpartition] at hended
      cases hended
  | halted items engine chosen after split middle reason hcut hfirst ih =>
      rw [hcut.sortWith_of_error rfl hfirst] at hended
      cases hfirst.symm.trans hended
  | looped items engine chosen after split middle hcut hfirst ihShorter ihLonger =>
      rw [hcut.sortWith_of_ok rfl hfirst rfl] at hended
      exact .cut hcut hfirst (ihShorter hfirst) (ihLonger hended)

end Keystream
