import Keystream.Proofs.Sort.Turn
import Mathlib.Data.Nat.Log

/-!
# How deep a sort is nested

A loop that holds some items hands the shorter side of its cut to a nested call and keeps the longer
one. The pivot is on neither side, so the nested call has less than half of the items, whatever the
pivot was. Calls nested one in another therefore hold numbers of items with fewer and fewer bits.
The sort is run here with a limit to its nesting, beyond which it has no result, and a limit of the
logarithm of the number of items is never reached.
-/

namespace Keystream

variable {α σ : Type} {lt gt : α → α → Bool} {pick : Nat → Draw σ Nat} {items : Array α}
  {engine : σ} {chosen : Nat} {after : σ} {split : Vector α items.size} {middle : Fin items.size}
  {first second : Arrangement α σ} {reason : Stop}

/-- The items that the loop held when it made a nested call, and those that it gave. -/
structure Nested where
  held : Nat
  given : Nat

/-- Sorts with calls nested at most `limit` deep, and tells the nested calls in order. -/
def sortNested? (pick : Nat → Draw σ Nat) (lt gt : α → α → Bool) (limit : Nat) (items : Array α)
    (engine : σ) : Option (Arrangement α σ × List Nested) :=
  if items.size < 2 then
    some (.finished items engine, [])
  else
    match pick items.size engine with
    | (.error reason, engine) => some (.stopped items engine reason, [])
    | (.ok chosen, engine) =>
        match partition? lt gt items.toVector chosen with
        | none => some (.stopped items engine .overrun, [])
        | some (split, middle) =>
            let shorter := shorterSide split middle
            let longer := longerSide split middle
            match limit with
            | 0 => none
            | deeper + 1 =>
                match sortNested? pick lt gt deeper shorter engine with
                | none => none
                | some (first, calls) =>
                    let calls := ⟨items.size, shorter.size⟩ :: calls
                    match first.ended with
                    | .error _ =>
                        some ({ first with items := rejoined split middle first.items longer },
                          calls)
                    | .ok () =>
                        -- the loop goes on in this call, under the same limit
                        match sortNested? pick lt gt (deeper + 1) longer first.engine with
                        | none => none
                        | some (second, later) =>
                            some ({ second with
                              items := rejoined split middle first.items second.items },
                              calls ++ later)
termination_by items.size
decreasing_by
  · exact size_shorterSide_lt split middle
  · exact size_longerSide_lt split middle

/-! ### Less than half of the items -/

theorem size_shorterSide_le_half {n : Nat} (split : Vector α n) (middle : Fin n) :
    (shorterSide split middle).size ≤ (n - 1) / 2 := by
  have hsum := size_shorterSide_add_size_longerSide split middle
  have hle := size_shorterSide_le_size_longerSide split middle
  omega

theorem log_half_lt_log {few many : Nat} (htwo : 2 ≤ many) (hhalf : few ≤ (many - 1) / 2) :
    Nat.log 2 few < Nat.log 2 many := by
  have hle : Nat.log 2 few ≤ Nat.log 2 (many / 2) := Nat.log_mono_right (by omega)
  rw [Nat.log_of_one_lt_of_le Nat.one_lt_two htwo]
  omega

/-! ### The limit is never reached -/

theorem Cut.sortNested?_of_error {limit : Nat} {calls : List Nested}
    (hcut : Cut pick lt gt items engine chosen after split middle)
    (hfirst : sortNested? pick lt gt limit (shorterSide split middle) after = some (first, calls))
    (hended : first.ended = .error reason) :
    sortNested? pick lt gt (limit + 1) items engine =
      some ({ first with items := rejoined split middle first.items (longerSide split middle) },
        ⟨items.size, (shorterSide split middle).size⟩ :: calls) := by
  rw [sortNested?, if_neg (Nat.not_lt.2 hcut.two_le), hcut.pick_eq]
  simp only [hcut.partition_eq, hfirst, hended]

theorem Cut.sortNested?_of_ok {limit : Nat} {calls later : List Nested}
    (hcut : Cut pick lt gt items engine chosen after split middle)
    (hfirst : sortNested? pick lt gt limit (shorterSide split middle) after = some (first, calls))
    (hended : first.ended = .ok ())
    (hsecond : sortNested? pick lt gt (limit + 1) (longerSide split middle) first.engine =
      some (second, later)) :
    sortNested? pick lt gt (limit + 1) items engine =
      some ({ second with items := rejoined split middle first.items second.items },
        ⟨items.size, (shorterSide split middle).size⟩ :: (calls ++ later)) := by
  rw [sortNested?, if_neg (Nat.not_lt.2 hcut.two_le), hcut.pick_eq]
  simp only [hcut.partition_eq, hfirst, hended, hsecond, List.cons_append]

/-- Each nested call gets at most half of the items that its loop holds beside the pivot. -/
def Halving (calls : List Nested) : Prop :=
  ∀ call ∈ calls, call.given ≤ (call.held - 1) / 2

theorem halving_nil : Halving [] := by
  intro call hmem
  cases hmem

theorem Halving.cons {n : Nat} {split : Vector α n} {middle : Fin n} {calls : List Nested}
    (hcalls : Halving calls) : Halving (⟨n, (shorterSide split middle).size⟩ :: calls) := by
  intro call hmem
  rcases List.mem_cons.1 hmem with rfl | hmem
  · exact size_shorterSide_le_half split middle
  · exact hcalls call hmem

theorem Halving.append {calls later : List Nested} (hcalls : Halving calls)
    (hlater : Halving later) : Halving (calls ++ later) := by
  intro call hmem
  rcases List.mem_append.1 hmem with hmem | hmem
  · exact hcalls call hmem
  · exact hlater call hmem

theorem exists_calls_sortNested? {limit : Nat} (hlimit : Nat.log 2 items.size ≤ limit) :
    ∃ calls, sortNested? pick lt gt limit items engine =
        some (sortWith pick lt gt items engine, calls) ∧ Halving calls := by
  induction items, engine using sortWith_induction pick lt gt generalizing limit with
  | few items engine hsize =>
      refine ⟨[], ?_, halving_nil⟩
      rw [sortNested?, if_pos hsize, sortWith_of_few hsize]
  | undrawn items engine reason after htwo hpick =>
      refine ⟨[], ?_, halving_nil⟩
      rw [sortNested?, if_neg (Nat.not_lt.2 htwo), hpick, sortWith_of_undrawn htwo hpick]
  | uncut items engine chosen after htwo hpick hpartition =>
      refine ⟨[], ?_, halving_nil⟩
      rw [sortNested?, if_neg (Nat.not_lt.2 htwo), hpick, sortWith_of_uncut htwo hpick hpartition]
      simp only [hpartition]
  | halted items engine chosen after split middle reason hcut hended ih =>
      have hless := log_half_lt_log hcut.two_le (size_shorterSide_le_half split middle)
      obtain ⟨deeper, rfl⟩ := Nat.exists_eq_succ_of_ne_zero (by omega : limit ≠ 0)
      obtain ⟨calls, hfirst, hcalls⟩ := ih (by omega : _ ≤ deeper)
      refine ⟨⟨items.size, (shorterSide split middle).size⟩ :: calls, ?_, hcalls.cons⟩
      rw [hcut.sortNested?_of_error hfirst hended, hcut.sortWith_of_error rfl hended]
  | looped items engine chosen after split middle hcut hended ihShorter ihLonger =>
      have hless := log_half_lt_log hcut.two_le (size_shorterSide_le_half split middle)
      have hlonger : Nat.log 2 (longerSide split middle).size ≤ Nat.log 2 items.size :=
        Nat.log_mono_right (Nat.le_of_lt (size_longerSide_lt split middle))
      obtain ⟨deeper, rfl⟩ := Nat.exists_eq_succ_of_ne_zero (by omega : limit ≠ 0)
      obtain ⟨calls, hfirst, hcalls⟩ := ihShorter (by omega : _ ≤ deeper)
      obtain ⟨later, hsecond, hlater⟩ := ihLonger (Nat.le_trans hlonger hlimit)
      refine ⟨⟨items.size, (shorterSide split middle).size⟩ :: (calls ++ later), ?_,
        (hcalls.append hlater).cons⟩
      rw [hcut.sortNested?_of_ok hfirst hended hsecond, hcut.sortWith_of_ok rfl hended rfl]

/-- **The nesting of a sort is logarithmic.** Each nested call gets at most half of the items that
its loop holds beside the pivot, so a limit at the logarithm of the size changes nothing. -/
theorem nesting_logarithmic (pick : Nat → Draw σ Nat) (lt gt : α → α → Bool) (items : Array α)
    (engine : σ) :
    ∃ calls, sortNested? pick lt gt (Nat.log 2 items.size) items engine =
        some (sortWith pick lt gt items engine, calls) ∧
      ∀ call ∈ calls, call.given ≤ (call.held - 1) / 2 :=
  exists_calls_sortNested? (Nat.le_refl _)

/-- A limit can be too low: two items need one nested call. -/
example : (sortNested? (fun len drawn => (.ok (drawn % len), drawn + 1)) (fun x y : Nat => x < y)
    (fun x y => x > y) 0 #[2, 1] 7).isNone = true := by
  decide +kernel

end Keystream
