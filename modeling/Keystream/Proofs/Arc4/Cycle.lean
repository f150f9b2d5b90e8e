import Keystream.Proofs.Arc4.Discard
import Mathlib.Data.FinEnum
import Mathlib.Data.Set.Finite.List
import Mathlib.Order.Interval.Finset.Nat
import Mathlib.Order.Preorder.Finite

/-!
# Cycles

A step is a bijection of the valid tables of one size, as every step can be taken back, and of these
tables there are finitely many. So the tables fall into cycles: no two of them are ever led to the
same one by the same number of steps, and each of them comes back to itself. An engine that gives or
discards words takes steps and does nothing else, so all of this holds of engines as well.
-/

namespace Keystream.Arc4

namespace State

variable {e : Nat}

def validOfSize (e size : Nat) : Set (State e) :=
  {s | s.Valid ∧ s.size = size}

theorem mapsTo_step (e size : Nat) :
    Set.MapsTo (fun s : State e => s.step.2) (validOfSize e size) (validOfSize e size) := by
  rintro s ⟨hs, hsize⟩
  exact ⟨hs.stir 0, (size_stir 0 s).trans hsize⟩

theorem mapsTo_unstir (e size : Nat) :
    Set.MapsTo (unstir : State e → State e) (validOfSize e size) (validOfSize e size) := by
  rintro s ⟨hs, hsize⟩
  exact ⟨hs.unstir, (size_unstir s).trans hsize⟩

theorem invOn_unstir_step (e size : Nat) :
    Set.InvOn (unstir : State e → State e) (fun s => s.step.2) (validOfSize e size)
      (validOfSize e size) :=
  ⟨fun _ hs => hs.1.unstir_stir, fun _ hs => hs.1.stir_unstir⟩

theorem bijOn_step (e size : Nat) :
    Set.BijOn (fun s : State e => s.step.2) (validOfSize e size) (validOfSize e size) :=
  (invOn_unstir_step e size).bijOn (mapsTo_step e size) (mapsTo_unstir e size)

theorem finite_validOfSize (e size : Nat) : (validOfSize e size).Finite := by
  let parts : State e → Nat × Nat × List (BitVec e) := fun s => (s.i, s.j, s.table.toList)
  have hparts : Set.MapsTo parts (validOfSize e size)
      (Set.Iio size ×ˢ Set.Iio size ×ˢ {entries | entries.length = size}) := by
    rintro s ⟨hs, rfl⟩
    exact ⟨hs.i_lt, hs.j_lt, Array.length_toList⟩
  have hinjective : Set.InjOn parts (validOfSize e size) := by
    rintro ⟨i, j, table⟩ - ⟨i', j', table'⟩ - hsame
    obtain ⟨rfl, rfl, hentries⟩ : i = i' ∧ j = j' ∧ table.toList = table'.toList := by
      simpa [parts] using hsame
    rw [Array.toList_inj.1 hentries]
  have hfinite : (Set.Iio size ×ˢ Set.Iio size ×ˢ
      {entries : List (BitVec e) | entries.length = size}).Finite :=
    (Set.finite_Iio size).prod ((Set.finite_Iio size).prod (List.finite_length_eq _ size))
  exact Set.Finite.of_injOn hparts hinjective hfinite

namespace Valid

variable {s : State e}

/-- Among finitely many tables some table is met twice, and the steps in between lead back to it. -/
theorem exists_advance_eq (hs : s.Valid) : ∃ count, 0 < count ∧ s.advance count = s := by
  have hmem : ∀ count, s.advance count ∈ validOfSize e s.size := fun count =>
    ⟨hs.advance count, size_advance count s⟩
  obtain ⟨few, many, hlt, hsame⟩ :=
    Set.Finite.exists_lt_map_eq_of_forall_mem hmem (finite_validOfSize e s.size)
  exact ⟨many - few, Nat.sub_pos_of_lt hlt,
    (hs.advance_eq_advance_iff (Nat.le_of_lt hlt)).1 hsame⟩

end Valid

theorem advance_mul_eq {s : State e} {count : Nat} (hback : s.advance count = s) (times : Nat) :
    s.advance (count * times) = s := by
  induction times with
  | zero => rfl
  | succ times ih => rw [Nat.mul_succ, advance_add, ih, hback]

end State

variable {shape : Shape}

theorem injOn_advanceBy_next (count : Nat) :
    Set.InjOn (advanceBy Engine.next count) {s : Arc4 shape | s.Valid} := by
  intro s hs t ht hsame
  rw [advanceBy_next, advanceBy_next, mk.injEq] at hsame
  exact congrArg mk (State.Valid.eq_of_advance_eq hs ht hsame)

theorem injOn_discard (count : UInt64) :
    Set.InjOn (Engine.discard count) {s : Arc4 shape | s.Valid} := by
  intro s hs t ht hsame
  rw [discard_eq, discard_eq, mk.injEq] at hsame
  exact congrArg mk (State.Valid.eq_of_advance_eq hs ht hsame)

/-- **Steps are reversible.** On the valid tables of a size a step is a bijection, so no two engines
become equal by giving or discarding as many words, and each comes back to itself. -/
theorem steps_reversible (shape : Shape) (size : Nat) :
    (Set.BijOn (fun s => s.step.2) (State.validOfSize shape.entry size)
        (State.validOfSize shape.entry size) ∧
      Set.InvOn State.unstir (fun s => s.step.2) (State.validOfSize shape.entry size)
        (State.validOfSize shape.entry size)) ∧
    (∀ s t : Arc4 shape, s.Valid → t.Valid → s ≠ t →
      (∀ steps, s.advance steps ≠ t.advance steps) ∧
      (∀ count, advanceBy Engine.next count s ≠ advanceBy Engine.next count t) ∧
      ∀ count : UInt64, Engine.discard count s ≠ Engine.discard count t) ∧
    ∀ s : Arc4 shape, s.Valid → ∃ count, 0 < count ∧ advanceBy Engine.next count s = s := by
  refine ⟨⟨State.bijOn_step _ _, State.invOn_unstir_step _ _⟩, ?_, ?_⟩
  · intro s t hs ht hne
    refine ⟨fun steps hsame => hne ?_, fun count hsame => hne ?_, fun count hsame => hne ?_⟩
    · exact congrArg mk (State.Valid.eq_of_advance_eq hs ht hsame)
    · exact injOn_advanceBy_next count hs ht hsame
    · exact injOn_discard count hs ht hsame
  · intro s hs
    obtain ⟨count, hpos, hback⟩ := State.Valid.exists_advance_eq hs
    refine ⟨count, hpos, ?_⟩
    rw [advanceBy_next, State.advance_mul_eq hback]

/-- Two tables of three entries that differ in an exchange of two of them. -/
theorem steps_reversible_three :
    let s : Arc4 ⟨8, 8, 2, by decide, by decide, by decide⟩ := ⟨⟨0, 0, #[0, 1, 2]⟩⟩
    let t : Arc4 ⟨8, 8, 2, by decide, by decide, by decide⟩ := ⟨⟨0, 0, #[0, 2, 1]⟩⟩
    s.Valid ∧ t.Valid ∧ s ≠ t ∧
      (∀ count, advanceBy Engine.next count s ≠ advanceBy Engine.next count t) ∧
      (∀ count : UInt64, Engine.discard count s ≠ Engine.discard count t) ∧
      ∃ count, 0 < count ∧ advanceBy Engine.next count s = s := by
  intro s t
  have hs : s.Valid := ⟨by decide, by decide, by decide⟩
  have ht : t.Valid := ⟨by decide, by decide, by decide⟩
  have hne : s ≠ t := by decide
  obtain ⟨-, happart, hback⟩ := steps_reversible ⟨8, 8, 2, by decide, by decide, by decide⟩ 3
  exact ⟨hs, ht, hne, (happart s t hs ht hne).2.1, (happart s t hs ht hne).2.2, hback s hs⟩

end Keystream.Arc4
