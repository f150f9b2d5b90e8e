import Keystream.Proofs.Sort.Draws
import Keystream.Proofs.Sort.Sorted

/-!
# Each draw settles one item

A turn of the sort takes the item that its draw has chosen to the cut between the two sides. From
there it is not moved again, because later turns stay on one side of it. So each draw settles one
item for good. A run that does not end early leaves only those items to themselves that stand alone
on a side, and of these there is at most one more than there are draws.
-/

namespace Keystream

open Keystream.Partition

variable {α σ : Type} {lt gt : α → α → Bool} {pick : Nat → Draw σ Nat} {items : Array α}
  {engine : σ} {chosen : Nat} {after : σ} {split : Vector α items.size} {middle : Fin items.size}
  {reason : Stop} {offset : Nat}

/-- What a draw settles: it has drawn below `bound`, and the item that it has chosen goes to
`place`. -/
structure Settled (α : Type) where
  bound : Nat
  item : Option α
  place : Nat

/-- What the draws of a sort settle, in their order. The items stand at `offset` among others. -/
def settled (pick : Nat → Draw σ Nat) (lt gt : α → α → Bool) (offset : Nat) (items : Array α)
    (engine : σ) : List (Settled α) :=
  if items.size < 2 then
    []
  else
    match pick items.size engine with
    | (.error _, _) => []
    | (.ok chosen, engine) =>
        match partition? lt gt items.toVector chosen with
        | none => []
        | some (split, middle) =>
            let shorter := shorterSide split middle
            let first := sortWith pick lt gt shorter engine
            let draws := ⟨items.size, items[chosen]?, offset + middle⟩ ::
              settled pick lt gt (offset + shorterStart split middle) shorter engine
            match first.ended with
            | .error _ => draws
            | .ok () =>
                draws ++ settled pick lt gt (offset + longerStart split middle)
                  (longerSide split middle) first.engine
termination_by items.size
decreasing_by
  · exact size_shorterSide_lt split middle
  · exact size_longerSide_lt split middle

/-! ### One turn -/

theorem settled_of_few (hsize : items.size < 2) : settled pick lt gt offset items engine = [] := by
  rw [settled, if_pos hsize]

theorem settled_of_undrawn (htwo : 2 ≤ items.size)
    (hpick : pick items.size engine = (.error reason, after)) :
    settled pick lt gt offset items engine = [] := by
  rw [settled, if_neg (Nat.not_lt.2 htwo), hpick]

theorem settled_of_uncut (htwo : 2 ≤ items.size)
    (hpick : pick items.size engine = (.ok chosen, after))
    (hpartition : partition? lt gt items.toVector chosen = none) :
    settled pick lt gt offset items engine = [] := by
  rw [settled, if_neg (Nat.not_lt.2 htwo), hpick]
  simp only [hpartition]

theorem Cut.settled_of_error (hcut : Cut pick lt gt items engine chosen after split middle)
    (hended : (sortWith pick lt gt (shorterSide split middle) after).ended = .error reason) :
    settled pick lt gt offset items engine =
      ⟨items.size, items[chosen]?, offset + middle⟩ ::
        settled pick lt gt (offset + shorterStart split middle) (shorterSide split middle)
          after := by
  rw [settled, if_neg (Nat.not_lt.2 hcut.two_le), hcut.pick_eq]
  simp only [hcut.partition_eq, hended]

theorem Cut.settled_of_ok (hcut : Cut pick lt gt items engine chosen after split middle)
    (hended : (sortWith pick lt gt (shorterSide split middle) after).ended = .ok ()) :
    settled pick lt gt offset items engine =
      ⟨items.size, items[chosen]?, offset + middle⟩ ::
        (settled pick lt gt (offset + shorterStart split middle) (shorterSide split middle) after ++
          settled pick lt gt (offset + longerStart split middle) (longerSide split middle)
            (sortWith pick lt gt (shorterSide split middle) after).engine) := by
  rw [settled, if_neg (Nat.not_lt.2 hcut.two_le), hcut.pick_eq]
  simp only [hcut.partition_eq, hended, List.cons_append]

/-! ### Where the items are settled -/

/-- The draws have settled different places, and each holds the item that was settled there. -/
structure Settles (offset : Nat) (items : Array α) (draws : List (Settled α)) : Prop where
  place_within : ∀ draw ∈ draws, offset ≤ draw.place ∧ draw.place < offset + items.size
  place_ne : draws.Pairwise fun draw later => draw.place ≠ later.place
  getElem?_place : ∀ draw ∈ draws, items[draw.place - offset]? = draw.item

theorem settles_nil (offset : Nat) (items : Array α) : Settles offset items [] := by
  refine ⟨?_, .nil, ?_⟩
  · intro draw hmem
    cases hmem
  · intro draw hmem
    cases hmem

section Join

variable {n k : Nat} {split : Vector α n} {middle : Fin n} {shorter longer left right : Array α}
  {pivot : α}

theorem getElem?_before_pivot (hk : k < left.size) :
    (left.push pivot ++ right)[k]? = left[k]? := by
  rw [Array.getElem?_append_left (by rw [Array.size_push]; omega), Array.getElem?_push,
    if_neg (by omega)]

theorem getElem?_pivot : (left.push pivot ++ right)[left.size]? = some pivot := by
  rw [Array.getElem?_append_left (by rw [Array.size_push]; omega), Array.getElem?_push, if_pos rfl]

theorem getElem?_after_pivot : (left.push pivot ++ right)[left.size + 1 + k]? = right[k]? := by
  rw [Array.getElem?_append_right (by rw [Array.size_push]; omega), Array.size_push,
    Nat.add_sub_cancel_left]

theorem size_rejoined (hshorter : shorter.size = (shorterSide split middle).size)
    (hlonger : longer.size = (longerSide split middle).size) :
    (rejoined split middle shorter longer).size = n := by
  have hsum := size_shorterSide_add_size_longerSide split middle
  rcases sides_cases split middle with ⟨-, -, -, -, hrejoined⟩ | ⟨-, -, -, -, hrejoined⟩
  · rw [hrejoined, Array.size_append, Array.size_push]
    omega
  · rw [hrejoined, Array.size_append, Array.size_push]
    omega

theorem getElem?_rejoined_middle (hshorter : shorter.size = (shorterSide split middle).size)
    (hlonger : longer.size = (longerSide split middle).size) :
    (rejoined split middle shorter longer)[(middle : Nat)]? = some (split.get middle) := by
  rcases sides_cases split middle with ⟨-, hsize, -, -, hrejoined⟩ | ⟨-, -, -, hsize, hrejoined⟩
  · rw [hrejoined, ← hsize, ← hshorter, getElem?_pivot]
  · rw [hrejoined, ← hsize, ← hlonger, getElem?_pivot]

theorem getElem?_rejoined_shorter (hlonger : longer.size = (longerSide split middle).size)
    (hk : k < shorter.size) :
    (rejoined split middle shorter longer)[shorterStart split middle + k]? = shorter[k]? := by
  rcases sides_cases split middle with
    ⟨hstart, -, -, -, hrejoined⟩ | ⟨hstart, -, -, hsize, hrejoined⟩
  · rw [hrejoined, hstart, Nat.zero_add, getElem?_before_pivot hk]
  · rw [hrejoined, hstart, ← hsize, ← hlonger, getElem?_after_pivot]

theorem getElem?_rejoined_longer (hshorter : shorter.size = (shorterSide split middle).size)
    (hk : k < longer.size) :
    (rejoined split middle shorter longer)[longerStart split middle + k]? = longer[k]? := by
  rcases sides_cases split middle with
    ⟨-, hsize, hstart, -, hrejoined⟩ | ⟨-, -, hstart, -, hrejoined⟩
  · rw [hrejoined, hstart, ← hsize, ← hshorter, getElem?_after_pivot]
  · rw [hrejoined, hstart, Nat.zero_add, getElem?_before_pivot hk]

theorem Settles.getElem?_whole {start : Nat} {side whole : Array α} {draws : List (Settled α)}
    {draw : Settled α} (hdraws : Settles (offset + start) side draws)
    (hside : ∀ k < side.size, whole[start + k]? = side[k]?) (hmem : draw ∈ draws) :
    whole[draw.place - offset]? = draw.item := by
  obtain ⟨hle, hlt⟩ := hdraws.place_within draw hmem
  obtain ⟨k, hk⟩ := Nat.exists_eq_add_of_le hle
  have hplace : draw.place - offset = start + k := by omega
  have hitem := hdraws.getElem?_place draw hmem
  rw [hk, Nat.add_sub_cancel_left] at hitem
  rw [hplace, hside k (by omega), hitem]

theorem Settles.join {bound : Nat} {draws later : List (Settled α)}
    (hdraws : Settles (offset + shorterStart split middle) shorter draws)
    (hlater : Settles (offset + longerStart split middle) longer later)
    (hshorter : shorter.size = (shorterSide split middle).size)
    (hlonger : longer.size = (longerSide split middle).size) :
    Settles offset (rejoined split middle shorter longer)
      (⟨bound, some (split.get middle), offset + middle⟩ :: (draws ++ later)) := by
  have hmiddle := middle.isLt
  have hsides := sides_cases split middle
  have hsize := size_rejoined hshorter hlonger
  have hwithin := hdraws.place_within
  have hwithin' := hlater.place_within
  refine ⟨?_, ?_, ?_⟩
  · intro draw hmem
    rw [hsize]
    rcases List.mem_cons.1 hmem with rfl | hmem
    · exact ⟨Nat.le_add_right _ _, Nat.add_lt_add_left hmiddle _⟩
    rcases List.mem_append.1 hmem with hmem | hmem
    · have hplace := hwithin draw hmem
      omega
    · have hplace := hwithin' draw hmem
      omega
  · refine List.pairwise_cons.2 ⟨?_, List.pairwise_append.2 ⟨hdraws.place_ne, hlater.place_ne, ?_⟩⟩
    · intro draw hmem
      change offset + middle ≠ draw.place
      rcases List.mem_append.1 hmem with hmem | hmem
      · have hplace := hwithin draw hmem
        omega
      · have hplace := hwithin' draw hmem
        omega
    · intro draw hmem draw' hmem'
      have hplace := hwithin draw hmem
      have hplace' := hwithin' draw' hmem'
      omega
  · intro draw hmem
    rcases List.mem_cons.1 hmem with rfl | hmem
    · rw [Nat.add_sub_cancel_left, getElem?_rejoined_middle hshorter hlonger]
    rcases List.mem_append.1 hmem with hmem | hmem
    · exact hdraws.getElem?_whole (fun k hk => getElem?_rejoined_shorter hlonger hk) hmem
    · exact hlater.getElem?_whole (fun k hk => getElem?_rejoined_longer hshorter hk) hmem

end Join

theorem Cut.getElem?_chosen (hcut : Cut pick lt gt items engine chosen after split middle)
    (hirrefl : ∀ x, lt x x = false) : items[chosen]? = some (split.get middle) := by
  have hchosen := lt_of_partition?_eq_some hcut.partition_eq
  obtain ⟨split', middle', hpartition, hparted⟩ :=
    partition?_eq_some hcut.two_le hchosen (hirrefl _) (sides_trivial _ _)
  rw [hcut.partition_eq] at hpartition
  cases hpartition
  rw [Array.getElem?_eq_getElem hchosen]
  exact congrArg some hparted.getElem_middle.symm

theorem settles_settled (hirrefl : ∀ x, lt x x = false) :
    Settles offset (sortWith pick lt gt items engine).items
      (settled pick lt gt offset items engine) := by
  induction items, engine using sortWith_induction pick lt gt generalizing offset with
  | few items engine hsize =>
      rw [settled_of_few hsize]
      exact settles_nil _ _
  | undrawn items engine reason after htwo hpick =>
      rw [settled_of_undrawn htwo hpick]
      exact settles_nil _ _
  | uncut items engine chosen after htwo hpick hpartition =>
      rw [settled_of_uncut htwo hpick hpartition]
      exact settles_nil _ _
  | halted items engine chosen after split middle reason hcut hended ih =>
      rw [hcut.settled_of_error hended, hcut.sortWith_of_error rfl hended,
        hcut.getElem?_chosen hirrefl, ← List.append_nil (settled _ _ _ _ (shorterSide _ _) _)]
      exact ih.join (settles_nil _ _) size_sortWith rfl
  | looped items engine chosen after split middle hcut hended ihShorter ihLonger =>
      rw [hcut.settled_of_ok hended, hcut.sortWith_of_ok rfl hended rfl,
        hcut.getElem?_chosen hirrefl]
      exact ihShorter.join ihLonger size_sortWith size_sortWith

/-! ### How many draws there are -/

theorem recorded_settled (hended : (sortWith pick lt gt items engine).ended = .ok ())
    (drawn : List Nat) :
    sortWith (Draw.recorded pick) lt gt items (engine, drawn) =
      (sortWith pick lt gt items engine).withBounds
        (drawn ++ (settled pick lt gt offset items engine).map (·.bound)) := by
  induction completed_of_ended hended generalizing offset drawn with
  | few hsize =>
      rw [sortWith_of_few hsize, sortWith_of_few hsize, settled_of_few hsize, List.map_nil,
        List.append_nil]
      rfl
  | cut hcut hfirst hshorter hlonger ihShorter ihLonger =>
      have hsecond := hended
      rw [hcut.sortWith_of_ok rfl hfirst rfl] at hsecond
      rw [hcut.settled_of_ok hfirst, List.map_cons, List.map_append]
      exact hcut.recorded_of_ok (ihShorter hfirst _) hfirst (ihLonger hsecond _)

theorem boundsWithin_settled (hended : (sortWith pick lt gt items engine).ended = .ok ()) :
    BoundsWithin items.size ((settled pick lt gt offset items engine).map (·.bound)) := by
  obtain ⟨bounds, hrecorded, hbounds⟩ := exists_bounds_sortWith pick lt gt items engine []
  have hsame : (settled pick lt gt offset items engine).map (·.bound) = bounds :=
    congrArg (fun run => run.engine.2) ((recorded_settled hended []).symm.trans hrecorded)
  rw [hsame]
  exact hbounds

theorem half_le_length_settled (hended : (sortWith pick lt gt items engine).ended = .ok ()) :
    items.size / 2 ≤ (settled pick lt gt offset items engine).length := by
  induction completed_of_ended hended generalizing offset with
  | few hsize =>
      rw [Nat.div_eq_of_lt hsize]
      exact Nat.zero_le _
  | @cut items engine chosen after split middle hcut hfirst hshorter hlonger ihShorter ihLonger =>
      have hsecond := hended
      rw [hcut.sortWith_of_ok rfl hfirst rfl] at hsecond
      have hsum := size_shorterSide_add_size_longerSide split middle
      have hdraws : (shorterSide split middle).size / 2 ≤ (settled pick lt gt
          (offset + shorterStart split middle) (shorterSide split middle) after).length :=
        ihShorter hfirst
      have hlater : (longerSide split middle).size / 2 ≤ (settled pick lt gt
          (offset + longerStart split middle) (longerSide split middle)
          (sortWith pick lt gt (shorterSide split middle) after).engine).length :=
        ihLonger hsecond
      rw [hcut.settled_of_ok hfirst, List.length_cons, List.length_append]
      omega

theorem head_settled (htwo : 2 ≤ items.size)
    (hended : (sortWith pick lt gt items engine).ended = .ok ()) :
    ((settled pick lt gt offset items engine).map (·.bound)).head? = some items.size := by
  cases completed_of_ended hended with
  | few hsize => omega
  | cut hcut hfirst hshorter hlonger =>
      rw [hcut.settled_of_ok hfirst]
      rfl

/-! ### Any sequence of draws -/

/-- The number and the bounds of the draws of a sort that succeeds, and the places they settle. -/
structure DrawsSettle (pick : Nat → Draw σ Nat) (lt gt : α → α → Bool) (items : Array α)
    (engine : σ) : Prop where
  ended : (sortWith pick lt gt items engine).ended = .ok ()
  recorded_eq : sortWith (Draw.recorded pick) lt gt items (engine, []) =
    (sortWith pick lt gt items engine).withBounds
      ((settled pick lt gt 0 items engine).map (·.bound))
  half_le : items.size / 2 ≤ (settled pick lt gt 0 items engine).length
  length_le : (settled pick lt gt 0 items engine).length ≤ items.size - 1
  between : ∀ draw ∈ settled pick lt gt 0 items engine, 2 ≤ draw.bound ∧ draw.bound ≤ items.size
  head_eq : ((settled pick lt gt 0 items engine).map (·.bound)).head? = some items.size
  place_lt : ∀ draw ∈ settled pick lt gt 0 items engine, draw.place < items.size
  place_ne : (settled pick lt gt 0 items engine).Pairwise fun draw later => draw.place ≠ later.place
  getElem?_place : ∀ draw ∈ settled pick lt gt 0 items engine,
    (sortWith pick lt gt items engine).items[draw.place]? = draw.item

theorem drawsSettle_of_ended (hirrefl : ∀ x, lt x x = false) (htwo : 2 ≤ items.size)
    (hended : (sortWith pick lt gt items engine).ended = .ok ()) :
    DrawsSettle pick lt gt items engine := by
  have hbounds : BoundsWithin items.size ((settled pick lt gt 0 items engine).map (·.bound)) :=
    boundsWithin_settled hended
  have hsettles : Settles 0 (sortWith pick lt gt items engine).items
      (settled pick lt gt 0 items engine) := settles_settled hirrefl
  refine ⟨hended, recorded_settled hended [], half_le_length_settled hended, ?_, ?_,
    head_settled htwo hended, ?_, hsettles.place_ne, hsettles.getElem?_place⟩
  · have hlength := hbounds.length_le
    rw [List.length_map] at hlength
    exact hlength
  · intro draw hmem
    exact hbounds.between _ (List.mem_map_of_mem hmem)
  · intro draw hmem
    have hplace := (hsettles.place_within draw hmem).2
    rw [size_sortWith, Nat.zero_add] at hplace
    exact hplace

/-- **Each draw of a sort settles one item.** As long as no item is below itself, a sort of two or
more items makes at least half as many draws as it has items and fewer than these, each below a
bound from 2 to their number. Each puts the item that it chooses in a place of its own. -/
theorem each_draw_settles {α : Type} (lt gt : α → α → Bool) (hirrefl : ∀ x, lt x x = false) :
    (∀ {σ : Type} (pick : Nat → Draw σ Nat) (items : Array α) (engine : σ), 2 ≤ items.size →
      (∀ len, 2 ≤ len → len ≤ items.size → ∀ start, ∃ chosen after,
        pick len start = (.ok chosen, after) ∧ chosen < len) →
      DrawsSettle pick lt gt items engine) ∧
    ∀ {σ : Type} {w : Nat} [Engine σ w] (budget : Nat) (items : Array α) (engine : σ),
      2 ≤ items.size → items.size < 2 ^ w →
      (sort budget lt items engine gt).ended ≠ .error .starved →
        sort budget lt items engine gt = sortWith (Draw.index budget) lt gt items engine ∧
          DrawsSettle (Draw.index budget) lt gt items engine := by
  refine ⟨?_, ?_⟩
  · intro σ pick items engine htwo hdraws
    have hpicks : PicksAmong pick items.size := by
      intro len hlen hle start chosen after hpick
      obtain ⟨chosen', after', hpick', hlt⟩ := hdraws len hlen hle start
      rw [hpick] at hpick'
      cases hpick'
      exact hlt
    refine drawsSettle_of_ended hirrefl htwo ?_
    rcases hended : (sortWith pick lt gt items engine).ended with reason | done
    · obtain ⟨len, start, hlen, hle, hpick⟩ := drawEnds_of_sortWith hirrefl hpicks hended
      obtain ⟨chosen, after, hpick', -⟩ := hdraws len hlen hle start
      cases hpick.symm.trans hpick'
    · rfl
  · intro σ w _ budget items engine htwo hfits hdrawn
    have hended := ended_sort hirrefl (fun _ => hfits) hdrawn
    rw [sort_eq_sortWith fun _ => hfits] at hended ⊢
    exact ⟨rfl, drawsSettle_of_ended hirrefl htwo hended⟩

/-- Numbers compared in a circle, where each is below the next modulo 3. -/
theorem each_draw_settles_circle :
    let lt : Nat → Nat → Bool := fun x y => decide ((x + 1) % 3 = y % 3)
    let gt : Nat → Nat → Bool := fun x y => lt y x
    let pick : Nat → Draw Nat Nat := fun len drawn => (.ok (drawn % len), drawn + 1)
    (lt 0 1 ∧ lt 1 2 ∧ lt 2 0) ∧ DrawsSettle pick lt gt #[2, 0, 1, 1, 0] 7 ∧
      DrawsSettle (Draw.index 8) lt gt #[2, 0, 1, 1, 0] SplitMix.initial := by
  intro lt gt pick
  have hirrefl : ∀ x, lt x x = false := by
    intro x
    refine decide_eq_false ?_
    omega
  have hok : (sort 8 lt #[2, 0, 1, 1, 0] SplitMix.initial gt).ended.isOk = true := by
    decide +kernel
  obtain ⟨hpicks, hengines⟩ := each_draw_settles lt gt hirrefl
  refine ⟨by decide, hpicks pick #[2, 0, 1, 1, 0] 7 (by decide) ?_,
    (hengines 8 #[2, 0, 1, 1, 0] SplitMix.initial (by decide) (by decide) ?_).2⟩
  · intro len htwo hlen start
    exact ⟨start % len, start + 1, rfl, Nat.mod_lt _ (by omega)⟩
  · intro hstarved
    rw [hstarved] at hok
    cases hok

end Keystream
