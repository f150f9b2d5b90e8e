import Keystream.Proofs.Arc4.Decode
import Keystream.Proofs.Arc4.Discard
import Keystream.Proofs.Arc4.ShortCycle
import Mathlib.Data.List.Rotate
import Mathlib.Order.Bounds.Basic

/-!
# Around the short cycle

On the short cycle every step exchanges the entry under `j` with its neighbor, so this entry travels
around the table while the others keep their order. Read around the table from `j` on, it comes
first and the others follow, turned by one place with each step. They have turned once around after
one step less than there are places. The entry one is then a place short of once around the table,
so the table has turned by one place, and it takes as many such turns as there are places to get it
back. No smaller number of steps leads back, as two neighboring numbers have no common divisor.
-/

namespace Keystream.Arc4

section Exchange

variable {α : Type} {items : Array α} {place : Nat} {first second : α} {others : List α}

theorem getElem?_rotate_toList (start : Nat) {k : Nat} (hk : k < items.size) :
    (items.toList.rotate start)[k]? = items[(start + k) % items.size]? := by
  rw [List.getElem?_rotate (by rwa [Array.length_toList]), Array.length_toList,
    Array.getElem?_toList, Nat.add_comm]

theorem rotate_swapIfInBounds (hplace : place < items.size)
    (haround : items.toList.rotate place = first :: second :: others) :
    (items.swapIfInBounds place ((place + 1) % items.size)).toList.rotate place =
      second :: first :: others := by
  have hnext : (place + 1) % items.size < items.size := Nat.mod_lt _ (Nat.zero_lt_of_lt hplace)
  have hsize : items.size = others.length + 2 := by
    rw [← Array.length_toList, ← List.length_rotate, haround, List.length_cons, List.length_cons]
  have hbefore : ∀ k < items.size,
      (first :: second :: others)[k]? = items[(place + k) % items.size]? := by
    intro k hk
    rw [← haround, getElem?_rotate_toList place hk]
  apply List.ext_getElem?
  intro k
  rcases Nat.lt_or_ge k items.size with hk | hk
  · rw [getElem?_rotate_toList _ (by rwa [Array.size_swapIfInBounds]), Array.size_swapIfInBounds,
      getElem?_swapIfInBounds hplace hnext]
    match k with
    | 0 =>
        have hhere : (place + 0) % items.size = place := Nat.mod_eq_of_lt hplace
        rw [hhere, if_neg (ne_add_mod hplace Nat.one_pos (by omega)).symm, if_pos rfl,
          ← hbefore 1 (by omega)]
        rfl
    | 1 =>
        have hfirst : some first = items[(place + 0) % items.size]? := hbefore 0 (by omega)
        rw [Nat.add_zero, Nat.mod_eq_of_lt hplace] at hfirst
        rw [if_pos rfl, ← hfirst]
        rfl
    | k + 2 =>
        have hbeyond : (place + (k + 2)) % items.size =
            ((place + 1) % items.size + (k + 1)) % items.size := by
          rw [Nat.mod_add_mod, Nat.add_assoc, Nat.add_comm 1]
        rw [if_neg (ne_add_mod hplace (Nat.succ_pos _) hk), ← hbefore _ hk, hbeyond,
          if_neg (ne_add_mod hnext (Nat.succ_pos _) (by omega))]
        rfl
  · rw [List.getElem?_eq_none, List.getElem?_eq_none]
    · rwa [List.length_cons, List.length_cons, ← hsize]
    · rwa [List.length_rotate, Array.length_toList, Array.size_swapIfInBounds]

theorem rotate_succ_swapIfInBounds (hplace : place < items.size)
    (haround : items.toList.rotate place = first :: second :: others) :
    (items.swapIfInBounds place ((place + 1) % items.size)).toList.rotate
        ((place + 1) % items.size) = first :: (second :: others).rotate 1 := by
  have hmod := List.rotate_mod (items.swapIfInBounds place ((place + 1) % items.size)).toList
    (place + 1)
  rw [Array.length_toList, Array.size_swapIfInBounds] at hmod
  rw [hmod, ← List.rotate_rotate, rotate_swapIfInBounds hplace haround, List.rotate_cons_succ,
    List.rotate_zero, List.rotate_cons_succ, List.rotate_zero, List.cons_append]

end Exchange

namespace State

variable {e : Nat} {s : State e}

/-- The entries, read around the table from `j` on. -/
def around (s : State e) : List (BitVec e) :=
  s.table.toList.rotate s.j

@[simp] theorem length_around (s : State e) : s.around.length = s.size := by
  rw [around, List.length_rotate, Array.length_toList, size]

theorem Valid.nodup_table (hs : s.Valid) : s.table.toList.Nodup :=
  (hs.perm.nodup_iff.2 List.nodup_range).of_map BitVec.toNat

theorem Valid.size_sub_one_pos (hs : s.Valid) (hshort : s.ShortCycle) : 0 < s.size - 1 := by
  have hone : s.entryAt s.j < s.size := hs.entryAt_lt s.j
  rw [hshort.2] at hone
  exact Nat.sub_pos_of_lt hone

theorem Valid.exists_around_eq (hs : s.Valid) : ∃ entry others, s.around = entry :: others ∧
    others.length = s.size - 1 ∧ others.Nodup := by
  obtain ⟨entry, others, haround⟩ : ∃ entry others, s.around = entry :: others :=
    List.exists_cons_of_length_pos (by rw [length_around]; exact hs.size_pos)
  have hlength : (entry :: others).length = s.size := by rw [← haround, length_around]
  have hnodup : (entry :: others).Nodup := haround ▸ List.nodup_rotate.2 hs.nodup_table
  exact ⟨entry, others, haround, Nat.eq_sub_of_add_eq hlength, hnodup.of_cons⟩

namespace ShortCycle

theorem stir_eq (hshort : s.ShortCycle) :
    s.stir 0 = ⟨s.j, (s.j + 1) % s.size, s.table.swapIfInBounds s.j ((s.j + 1) % s.size)⟩ := by
  have hi : (s.stir 0).i = s.j := by rw [i_stir, hshort.1]
  have hj : (s.stir 0).j = (s.j + 1) % s.size := by rw [j_stir, ← hshort.1, hshort.2, Nat.add_zero]
  exact eq_of_parts hi hj (by rw [table_stir, hi, hj])

variable {entry : BitVec e} {others : List (BitVec e)}

theorem around_stir (hshort : s.ShortCycle) (hs : s.Valid) (haround : s.around = entry :: others) :
    (s.stir 0).around = entry :: others.rotate 1 := by
  have hlength : others.length + 1 = s.size := by
    rw [← length_around, haround, List.length_cons]
  have hpos := hs.size_sub_one_pos hshort
  obtain ⟨second, later, rfl⟩ := List.exists_cons_of_length_pos (show 0 < others.length by omega)
  rw [hshort.stir_eq]
  exact rotate_succ_swapIfInBounds hs.j_lt haround

/-- The entry under `j` stays the same, and the others turn by one place with each step. -/
theorem around_advance (hshort : s.ShortCycle) (hs : s.Valid)
    (haround : s.around = entry :: others) (count : Nat) :
    (s.advance count).around = entry :: others.rotate count := by
  induction count generalizing s others with
  | zero => rw [advance, haround, List.rotate_zero]
  | succ count ih =>
      have hstirred := hshort.around_stir hs haround
      rw [advance, ih (hs.shortCycle_stir.2 hshort) (hs.stir 0) hstirred, List.rotate_rotate,
        Nat.add_comm 1]

theorem j_advance (hshort : s.ShortCycle) (hs : s.Valid) (count : Nat) :
    (s.advance count).j = (s.j + count) % s.size := by
  rw [((hs.shortCycle_advance count).2 hshort).1, size_advance, hs.i_advance, hshort.1,
    Nat.mod_add_mod, Nat.mod_add_mod, Nat.add_right_comm]

theorem table_advance (hshort : s.ShortCycle) (hs : s.Valid) :
    (s.advance (s.size - 1)).table.toList = s.table.toList.rotate 1 := by
  obtain ⟨entry, others, haround, hlength, -⟩ := hs.exists_around_eq
  have hback : (s.advance (s.size - 1)).around = s.around := by
    rw [hshort.around_advance hs haround, haround, ← hlength, List.rotate_length]
  have hsum : 1 + (s.j + (s.size - 1)) = s.j + s.size := by
    have hpos := hs.size_pos
    omega
  have hlength : s.table.toList.length = s.size := Array.length_toList
  have hj : (1 + (s.j + (s.size - 1)) % s.size) % s.table.toList.length = s.j := by
    rw [hlength, Nat.add_mod_mod, hsum, Nat.add_mod_right, Nat.mod_eq_of_lt hs.j_lt]
  rw [around, hshort.j_advance hs] at hback
  apply (List.rotate_eq_rotate (n := (s.j + (s.size - 1)) % s.size)).1
  rw [hback, List.rotate_rotate, ← List.rotate_mod _ (1 + _), hj, around]

theorem advance_eq_of_dvd (hshort : s.ShortCycle) (hs : s.Valid) {count : Nat}
    (hplaces : s.size ∣ count) (hothers : s.size - 1 ∣ count) : s.advance count = s := by
  obtain ⟨entry, others, haround, hlength, -⟩ := hs.exists_around_eq
  have hround : ∀ place < s.size, (place + count) % s.size = place := by
    intro place hplace
    rw [Nat.add_mod, Nat.mod_eq_zero_of_dvd hplaces, Nat.add_zero, Nat.mod_mod,
      Nat.mod_eq_of_lt hplace]
  have hi : (s.advance count).i = s.i := by rw [hs.i_advance, hround _ hs.i_lt]
  have hj : (s.advance count).j = s.j := by rw [hshort.j_advance hs, hround _ hs.j_lt]
  have hturned : others.rotate count = others := by
    rw [← List.rotate_mod, hlength, Nat.mod_eq_zero_of_dvd hothers, List.rotate_zero]
  have htable : (s.advance count).table = s.table := by
    have hsame := hshort.around_advance hs haround count
    rw [hturned, ← haround, around, around, hj] at hsame
    exact Array.toList_inj.1 (List.rotate_injective s.j hsame)
  exact eq_of_parts hi hj htable

/-- The place of `i` tells the turns of the table, and the distinct others tell their own turns. -/
theorem dvd_of_advance_eq (hshort : s.ShortCycle) (hs : s.Valid) {count : Nat}
    (hback : s.advance count = s) : s.size * (s.size - 1) ∣ count := by
  obtain ⟨entry, others, haround, hlength, hnodup⟩ := hs.exists_around_eq
  have hne : others ≠ [] := by
    rw [← List.length_pos_iff, hlength]
    exact hs.size_sub_one_pos hshort
  have hturned : entry :: others.rotate count = entry :: others := by
    rw [← hshort.around_advance hs haround, hback, haround]
  have hmod : count % others.length = 0 :=
    (hnodup.rotate_eq_self_iff.1 (List.cons.inj hturned).2).resolve_right hne
  rw [hlength] at hmod
  have hcoprime : s.size.Coprime (s.size - 1) :=
    (Nat.coprime_self_sub_right hs.size_pos).2 (Nat.coprime_one_right s.size)
  exact hcoprime.mul_dvd_of_dvd_of_dvd (hs.size_dvd_of_advance_eq hback)
    (Nat.dvd_of_mod_eq_zero hmod)

theorem advance_eq_iff (hshort : s.ShortCycle) (hs : s.Valid) {count : Nat} :
    s.advance count = s ↔ s.size * (s.size - 1) ∣ count := by
  refine ⟨hshort.dvd_of_advance_eq hs, fun hdvd => hshort.advance_eq_of_dvd hs ?_ ?_⟩
  · exact Nat.dvd_trans (Nat.dvd_mul_right _ _) hdvd
  · exact Nat.dvd_trans (Nat.dvd_mul_left _ _) hdvd

end ShortCycle

theorem shortCycle_identity {size : Nat} (htwo : 2 ≤ size) (hwide : size ≤ 2 ^ e) :
    let s : State e := { identity e size with j := 1 }
    s.Valid ∧ s.ShortCycle ∧ s.size = size := by
  intro s
  have hidentity : (identity e size).Valid :=
    valid_identity (Nat.lt_of_lt_of_le Nat.two_pos htwo) hwide
  have hsize : s.size = size := size_identity e size
  have hone : s.entryAt 1 = 1 := by
    have hfits : 1 < 2 ^ e := Nat.lt_of_lt_of_le htwo hwide
    simp [entryAt, s, identity, Array.getD_eq_getD_getElem?, Nat.lt_of_succ_le htwo,
      Nat.mod_eq_of_lt hfits]
  refine ⟨⟨hidentity.i_lt, ?_, hidentity.perm⟩, ⟨?_, hone⟩, hsize⟩
  · rw [hsize]
    exact htwo
  · rw [hsize]
    exact (Nat.mod_eq_of_lt htwo).symm

end State

variable {shape : Shape}

/-- **The length of the short cycle.** A table on it comes back after as many steps as there are
ordered pairs of different places, and no sooner. With 256 entries and four steps to a word this
takes 16320 words. -/
theorem shortCycle_length {s : Arc4 shape} (hs : s.Valid) (hshort : s.ShortCycle) :
    IsLeast {steps | 0 < steps ∧ s.advance steps = s.toState} (s.size * (s.size - 1)) ∧
      (∀ steps, (s.advance (steps + (s.size - 1))).table.toList =
        (s.advance steps).table.toList.rotate 1) ∧
      (∀ words, advanceBy Engine.next words s = s ↔
        s.size * (s.size - 1) ∣ words * Word.chunkCount shape.word shape.bits) ∧
      (s.size = 256 → Word.chunkCount shape.word shape.bits = 4 →
        IsLeast {words | 0 < words ∧ advanceBy Engine.next words s = s} 16320) := by
  have hwords : ∀ words, advanceBy Engine.next words s = s ↔
      s.size * (s.size - 1) ∣ words * Word.chunkCount shape.word shape.bits := by
    intro words
    rw [advanceBy_next, ← hshort.advance_eq_iff hs]
    exact ⟨congrArg toState, congrArg mk⟩
  refine ⟨⟨⟨?_, ?_⟩, ?_⟩, ?_, hwords, ?_⟩
  · exact Nat.mul_pos hs.size_pos (hs.size_sub_one_pos hshort)
  · exact (hshort.advance_eq_iff hs).2 (Nat.dvd_refl _)
  · rintro steps ⟨hpos, hback⟩
    exact Nat.le_of_dvd hpos ((hshort.advance_eq_iff hs).1 hback)
  · intro steps
    have hturn := ((hs.shortCycle_advance steps).2 hshort).table_advance (hs.advance steps)
    rwa [State.size_advance, ← State.advance_add] at hturn
  · intro hsize hchunks
    have hcount : ∀ words, advanceBy Engine.next words s = s ↔ 16320 ∣ words := by
      intro words
      rw [hwords, hsize, hchunks]
      omega
    refine ⟨⟨by decide, (hcount 16320).2 (Nat.dvd_refl _)⟩, ?_⟩
    rintro words ⟨hpos, hback⟩
    exact Nat.le_of_dvd hpos ((hcount words).1 hback)

/-- All bytes in order, with `j` on the entry one and `i` on the place before. -/
theorem shortCycle_length_bytes :
    let s : Arc4 .bytes32 := ⟨{ State.identity 8 256 with j := 1 }⟩
    s.Valid ∧ s.ShortCycle ∧
      IsLeast {steps | 0 < steps ∧ s.advance steps = s.toState} 65280 ∧
      IsLeast {words | 0 < words ∧ advanceBy Engine.next words s = s} 16320 := by
  intro s
  obtain ⟨hs, hshort, hsize⟩ : s.Valid ∧ s.ShortCycle ∧ s.size = 256 :=
    State.shortCycle_identity (by decide) (by decide)
  obtain ⟨hsteps, -, -, hwords⟩ := shortCycle_length hs hshort
  rw [hsize] at hsteps
  exact ⟨hs, hshort, hsteps, hwords hsize (by decide)⟩

end Keystream.Arc4
