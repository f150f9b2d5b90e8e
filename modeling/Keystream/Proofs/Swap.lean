/-!
# Writing an item and exchanging two

Rounds and passes write single items of a buffer, and every other place reads as it did. Both the
permuted table and the shuffle exchange two items of an array and change nothing else. An exchange
permutes the items, and each place afterwards reads as one place did before.
-/

namespace Keystream

variable {α : Type}

theorem get_set {n : Nat} (items : Vector α n) (place other : Fin n) (item : α) :
    (items.set place.val item place.isLt).get other =
      if place = other then item else items.get other := by
  change (items.set place.val item place.isLt)[other.val] =
    if place = other then item else items[other.val]
  rw [Vector.getElem_set]
  simp only [Fin.ext_iff]

theorem perm_swapIfInBounds (items : Array α) (i j : Nat) :
    (items.swapIfInBounds i j).toList.Perm items.toList := by
  rw [Array.swapIfInBounds_def]
  split
  · split
    · exact (Array.swap_perm _ _).toList
    · exact .refl _
  · exact .refl _

theorem le_size_swapIfInBounds {items : Array α} {bound : Nat} (hbound : bound + 1 ≤ items.size)
    (i j : Nat) : bound ≤ (items.swapIfInBounds i j).size := by
  rw [Array.size_swapIfInBounds]
  exact Nat.le_of_succ_le hbound

theorem getElem?_swapIfInBounds {items : Array α} {i j : Nat} (hi : i < items.size)
    (hj : j < items.size) (p : Nat) :
    (items.swapIfInBounds i j)[p]? =
      if j = p then items[i]? else if i = p then items[j]? else items[p]? := by
  rw [Array.swapIfInBounds_def, dif_pos hi, dif_pos hj, Array.getElem?_swap,
    Array.getElem?_eq_getElem hi, Array.getElem?_eq_getElem hj]

theorem swapIfInBounds_swapIfInBounds {items : Array α} {i j : Nat} (hi : i < items.size)
    (hj : j < items.size) : (items.swapIfInBounds i j).swapIfInBounds i j = items := by
  have hswap : items.swapIfInBounds i j = items.swap i j hi hj := by
    rw [Array.swapIfInBounds_def, dif_pos hi, dif_pos hj]
  rw [hswap, Array.swapIfInBounds_def, dif_pos (by rwa [Array.size_swap]),
    dif_pos (by rwa [Array.size_swap]), Array.swap_swap]

end Keystream
