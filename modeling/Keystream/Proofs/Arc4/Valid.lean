import Keystream.Arc4
import Keystream.Proofs.Swap
import Mathlib.Algebra.Group.Nat.Defs
import Mathlib.Data.List.Perm.Subperm

/-!
# Valid tables

A state is valid when both cursors lie inside the table and the table holds every number below its
size exactly once. Nothing else is assumed of a state: stirring it, stepping it and scheduling any
key on it keep it valid, and none of them changes the size of the table. A list of distinct numbers
below its own length is such a table, which is all that a reader of saved tables has to check.
-/

namespace Keystream.Arc4

namespace State

variable {e : Nat}

theorem eq_of_parts {s t : State e} (hi : s.i = t.i) (hj : s.j = t.j) (htable : s.table = t.table) :
    s = t := by
  cases s
  cases t
  rw [mk.injEq]
  exact ⟨hi, hj, htable⟩

def numbers (s : State e) : List Nat :=
  s.table.toList.map BitVec.toNat

/-- The cursors lie inside the table, a permutation of the numbers below its size. -/
structure Valid (s : State e) : Prop where
  i_lt : s.i < s.size
  j_lt : s.j < s.size
  perm : s.numbers.Perm (List.range s.size)

theorem Valid.size_pos {s : State e} (hs : s.Valid) : 0 < s.size :=
  Nat.zero_lt_of_lt hs.i_lt

@[simp] theorem length_numbers (s : State e) : s.numbers.length = s.size := by
  simp [numbers, size]

/-- Distinct numbers below their own count are all the numbers below it. -/
theorem perm_range_of_nodup {numbers : List Nat} (hnodup : numbers.Nodup)
    (hlt : ∀ number ∈ numbers, number < numbers.length) :
    numbers.Perm (List.range numbers.length) := by
  have hsub : numbers ⊆ List.range numbers.length := by
    intro number hmem
    exact List.mem_range.2 (hlt number hmem)
  have hsubperm : numbers.Subperm (List.range numbers.length) := hnodup.subperm hsub
  exact hsubperm.perm_of_length_le (Nat.le_of_eq List.length_range)

/-! ### Stirring -/

@[simp] theorem i_stir (key : Nat) (s : State e) : (s.stir key).i = (s.i + 1) % s.size := rfl

@[simp] theorem j_stir (key : Nat) (s : State e) :
    (s.stir key).j = (s.j + s.entryAt ((s.i + 1) % s.size) + key) % s.size := rfl

theorem table_stir (key : Nat) (s : State e) :
    (s.stir key).table = s.table.swapIfInBounds (s.stir key).i (s.stir key).j := rfl

@[simp] theorem size_stir (key : Nat) (s : State e) : (s.stir key).size = s.size := by
  rw [size, table_stir, Array.size_swapIfInBounds, size]

theorem numbers_stir_perm (key : Nat) (s : State e) : (s.stir key).numbers.Perm s.numbers :=
  (perm_swapIfInBounds _ _ _).map BitVec.toNat

theorem Valid.stir {s : State e} (hs : s.Valid) (key : Nat) : (s.stir key).Valid where
  i_lt := by
    rw [size_stir]
    exact Nat.mod_lt _ hs.size_pos
  j_lt := by
    rw [size_stir]
    exact Nat.mod_lt _ hs.size_pos
  perm := by
    rw [size_stir]
    exact (numbers_stir_perm key s).trans hs.perm

/-! ### Steps and key schedules -/

@[simp] theorem size_advance (count : Nat) (s : State e) : (s.advance count).size = s.size := by
  induction count generalizing s with
  | zero => rfl
  | succ count ih => rw [advance, ih, size_stir]

theorem Valid.advance {s : State e} (hs : s.Valid) (count : Nat) : (s.advance count).Valid := by
  induction count generalizing s with
  | zero => exact hs
  | succ count ih => exact ih (hs.stir 0)

theorem advance_add (count later : Nat) (s : State e) :
    s.advance (count + later) = (s.advance count).advance later := by
  induction count generalizing s with
  | zero => rw [Nat.zero_add, advance]
  | succ count ih => rw [Nat.succ_add, advance, advance, ih]

theorem gather_snd {w : Nat} (bits : Nat) (hbits : 0 < bits) (shift : Nat) (word : BitVec w)
    (s : State e) :
    (s.gather bits hbits shift word).2 = s.advance (Word.chunkCount (w - shift) bits) := by
  fun_induction gather bits hbits shift word s with
  | case1 shift word s hshift chunk stepped hstep ih =>
      obtain ⟨-, rfl⟩ := Prod.mk.inj hstep
      rw [ih, Word.chunkCount_of_pos (Nat.sub_pos_of_lt hshift) hbits, Nat.sub_sub, advance]
  | case2 shift word s hshift =>
      rw [Nat.sub_eq_zero_of_le (Nat.le_of_not_lt hshift), Word.chunkCount_zero hbits, advance]

theorem passed_succ (key : Array (BitVec e)) (s : State e) (count : Nat) :
    s.passed key (count + 1) =
      (s.passed key count).stir (key.getD (count % key.size) 0).toNat := by
  rw [passed, passed, Nat.fold_succ]

@[simp] theorem size_passed (key : Array (BitVec e)) (s : State e) (count : Nat) :
    (s.passed key count).size = s.size := by
  induction count with
  | zero => rfl
  | succ count ih => rw [passed_succ, size_stir, ih]

theorem Valid.passed {s : State e} (hs : s.Valid) (key : Array (BitVec e)) (count : Nat) :
    (s.passed key count).Valid := by
  induction count with
  | zero => exact ⟨Nat.mod_lt _ hs.size_pos, hs.j_lt, hs.perm⟩
  | succ count ih =>
      rw [passed_succ]
      exact ih.stir _

theorem Valid.joined {s : State e} (hs : s.Valid) : ({ s with j := s.i } : State e).Valid :=
  ⟨hs.i_lt, hs.i_lt, hs.perm⟩

theorem schedule_eq (key : Array (BitVec e)) (s : State e) :
    s.schedule key =
      ({ s.passed key s.size with j := (s.passed key s.size).i } : State e).advance
        discardedSteps := by
  rw [schedule, keyPass]

@[simp] theorem size_schedule (key : Array (BitVec e)) (s : State e) :
    (s.schedule key).size = s.size := by
  rw [schedule_eq, size_advance]
  exact size_passed key s s.size

theorem Valid.schedule {s : State e} (hs : s.Valid) (key : Array (BitVec e)) :
    (s.schedule key).Valid := by
  rw [schedule_eq]
  exact (hs.passed key s.size).joined.advance discardedSteps

/-! ### The table at the start -/

@[simp] theorem size_identity (e size : Nat) : (identity e size).size = size := by
  simp [identity, State.size]

theorem numbers_identity {size : Nat} (hwide : size ≤ 2 ^ e) :
    (identity e size).numbers = List.range size := by
  apply List.ext_getElem
  · simp
  · intro place hplace _
    have hlt : place < size := by simpa using hplace
    have hfits : place < 2 ^ e := Nat.lt_of_lt_of_le hlt hwide
    simp [numbers, identity, Nat.mod_eq_of_lt hfits]

theorem valid_identity {size : Nat} (hpos : 0 < size) (hwide : size ≤ 2 ^ e) :
    (identity e size).Valid where
  i_lt := by
    rw [size_identity]
    exact hpos
  j_lt := by
    rw [size_identity]
    exact hpos
  perm := by rw [numbers_identity hwide, size_identity]

end State

/-! ### Sizes -/

theorem Shape.Supports.pos {shape : Shape} {size : Nat} (hsize : shape.Supports size) : 0 < size :=
  Nat.zero_lt_of_lt hsize.1

theorem Shape.fullSize_eq (shape : Shape) : shape.fullSize = 2 ^ shape.bits :=
  Nat.one_shiftLeft shape.bits

theorem Shape.Supports.le_two_pow_entry {shape : Shape} {size : Nat}
    (hsize : shape.Supports size) : size ≤ 2 ^ shape.entry := by
  have hle := hsize.2
  rw [shape.fullSize_eq] at hle
  exact Nat.le_trans hle (Nat.pow_le_pow_right Nat.two_pos shape.bits_le_entry)

theorem Shape.supports_fullSize (shape : Shape) : shape.Supports shape.fullSize := by
  refine ⟨?_, Nat.le_refl _⟩
  rw [shape.fullSize_eq]
  exact Nat.pow_le_pow_right Nat.two_pos shape.bits_pos

theorem Shape.keyed_fst {τ : Type} [SeedSource τ] (shape : Shape) (size : Nat) (source : τ) :
    (shape.keyed size source).1 =
      (State.identity shape.entry size).schedule (shape.keyMaterial size source).1 := by
  rw [Shape.keyed]

end Keystream.Arc4
