import Keystream.Proofs.Arc4.Valid

/-!
# Steps taken back

A step can be taken back. Exchanging the entries under the cursors once more restores the table, in
which the entry under `i` is the one that `j` was moved on by, and `i` was moved on by one. So no
two valid tables become the same one, however many steps both of them take.
-/

namespace Keystream.Arc4.State

variable {e : Nat}

/-- Takes back a stir without a key. -/
def unstir : State e → State e
  | ⟨i, j, table⟩ =>
      let size := table.size
      let table := table.swapIfInBounds i j
      ⟨(i + size - 1) % size, (j + size - (table.getD i 0).toNat) % size, table⟩

theorem unstir_eq (s : State e) :
    s.unstir = ⟨(s.i + s.size - 1) % s.size,
      (s.j + s.size - ((s.table.swapIfInBounds s.i s.j).getD s.i 0).toNat) % s.size,
      s.table.swapIfInBounds s.i s.j⟩ := rfl

theorem moved_back {size place distance : Nat} (hplace : place < size)
    (hdistance : distance ≤ size) :
    ((place + distance) % size + size - distance) % size = place :=
  calc ((place + distance) % size + size - distance) % size
    _ = (place + distance + (size - distance)) % size := by
        rw [Nat.add_sub_assoc hdistance, Nat.mod_add_mod]
    _ = (place + size) % size := by rw [Nat.add_assoc, Nat.add_sub_cancel' hdistance]
    _ = place := by rw [Nat.add_mod_right, Nat.mod_eq_of_lt hplace]

theorem moved_on {size place distance : Nat} (hplace : place < size) (hdistance : distance ≤ size) :
    ((place + size - distance) % size + distance) % size = place :=
  calc ((place + size - distance) % size + distance) % size
    _ = (place + (size - distance) + distance) % size := by
        rw [Nat.add_sub_assoc hdistance, Nat.mod_add_mod]
    _ = (place + size) % size := by rw [Nat.add_assoc, Nat.sub_add_cancel hdistance]
    _ = place := by rw [Nat.add_mod_right, Nat.mod_eq_of_lt hplace]

@[simp] theorem size_unstir (s : State e) : s.unstir.size = s.size := by
  rw [size, unstir_eq, Array.size_swapIfInBounds, size]

theorem numbers_unstir_perm (s : State e) : s.unstir.numbers.Perm s.numbers :=
  (perm_swapIfInBounds _ _ _).map BitVec.toNat

namespace Valid

variable {s t : State e}

theorem unstir (hs : s.Valid) : s.unstir.Valid where
  i_lt := by
    rw [size_unstir]
    exact Nat.mod_lt _ hs.size_pos
  j_lt := by
    rw [size_unstir]
    exact Nat.mod_lt _ hs.size_pos
  perm := by
    rw [size_unstir]
    exact (numbers_unstir_perm s).trans hs.perm

theorem entryAt_lt (hs : s.Valid) (place : Nat) : s.entryAt place < s.size := by
  rw [entryAt, Array.getD_eq_getD_getElem?]
  rcases hentry : s.table[place]? with _ | entry
  · exact hs.size_pos
  · have hmem : entry.toNat ∈ s.numbers :=
      List.mem_map_of_mem (Array.mem_toList_iff.2 (Array.mem_of_getElem? hentry))
    exact List.mem_range.1 (hs.perm.mem_iff.1 hmem)

theorem unstir_stir (hs : s.Valid) : (s.stir 0).unstir = s := by
  have hi : (s.stir 0).i < s.table.size := Nat.mod_lt _ hs.size_pos
  have hj : (s.stir 0).j < s.table.size := Nat.mod_lt _ hs.size_pos
  have htable : (s.stir 0).table.swapIfInBounds (s.stir 0).i (s.stir 0).j = s.table := by
    rw [table_stir, swapIfInBounds_swapIfInBounds hi hj]
  have hiBack : ((s.stir 0).i + s.size - 1) % s.size = s.i :=
    moved_back hs.i_lt hs.size_pos
  have hjBack : ((s.stir 0).j + s.size - (s.table.getD (s.stir 0).i 0).toNat) % s.size = s.j :=
    moved_back hs.j_lt (Nat.le_of_lt (hs.entryAt_lt _))
  rw [unstir_eq, size_stir, htable, hiBack, hjBack]

theorem stir_unstir (hs : s.Valid) : s.unstir.stir 0 = s := by
  have hi : (s.unstir.stir 0).i = s.i := by
    rw [i_stir, size_unstir]
    exact moved_on hs.i_lt hs.size_pos
  have hentry : s.unstir.entryAt s.i < s.size := by
    rw [← size_unstir s]
    exact hs.unstir.entryAt_lt s.i
  have hj : (s.unstir.stir 0).j = s.j := by
    rw [j_stir, ← i_stir 0, hi, size_unstir, Nat.add_zero]
    exact moved_on hs.j_lt (Nat.le_of_lt hentry)
  have htable : (s.unstir.stir 0).table = s.table := by
    rw [table_stir, hi, hj, unstir_eq, swapIfInBounds_swapIfInBounds hs.i_lt hs.j_lt]
  exact eq_of_parts hi hj htable

theorem eq_of_advance_eq (hs : s.Valid) (ht : t.Valid) {count : Nat}
    (hsame : s.advance count = t.advance count) : s = t := by
  induction count generalizing s t with
  | zero => exact hsame
  | succ count ih =>
      have hstir : s.stir 0 = t.stir 0 := ih (hs.stir 0) (ht.stir 0) hsame
      rw [← hs.unstir_stir, hstir, ht.unstir_stir]

end Valid

end Keystream.Arc4.State
