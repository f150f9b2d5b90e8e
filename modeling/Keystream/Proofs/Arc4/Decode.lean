import Keystream.Arc4.Text
import Keystream.Proofs.Arc4.Valid
import Keystream.Proofs.Text.Restored

/-!
# Decoded tables

A saved table of `size` entries is `size + 2` numbers below the size, and the entries, which are all
of them but the two cursors, differ from one another. The reader of it marks the entries that it has
seen; a marked value is thus the fault of a number that comes twice. Numbers fit the format exactly
when they are the saved values of a valid state of the size, so a decoder returns the valid states
of the size, each from the texts whose tokens read as its saved values, and from no other text.
-/

namespace Keystream.Arc4

open Stateful Text Text.Reader Text.Format

def format (size : Nat) : Format where
  count := size + 2
  limit? _ := some size
  distinctFrom := 2

variable {e size : Nat}

/-! ### Reading -/

/-- The numbers of the table that has been read so far are the marked ones. -/
structure Marked (size : Nat) (seen : Array Bool) (table : Array (BitVec e)) : Prop where
  size_seen : seen.size = size
  mem_iff : ∀ number, seen.getD number false = true ↔ number ∈ table.toList.map BitVec.toNat

theorem marked_empty (e size : Nat) : Marked (e := e) size (Array.replicate size false) #[] where
  size_seen := Array.size_replicate
  mem_iff := by
    intro number
    by_cases hlt : number < size
    · simp [Array.getD_eq_getD_getElem?, hlt]
    · simp [Array.getD_eq_getD_getElem?, Nat.le_of_not_lt hlt]

theorem numbers_push {value : Nat} (hfits : value < 2 ^ e) (table : Array (BitVec e)) :
    (table.push (BitVec.ofNat e value)).toList.map BitVec.toNat =
      table.toList.map BitVec.toNat ++ [value] := by
  simp [Nat.mod_eq_of_lt hfits]

theorem eq_of_numbers_eq {first second : Array (BitVec e)}
    (hnumbers : first.toList.map BitVec.toNat = second.toList.map BitVec.toNat) :
    first = second := by
  have hinjective : Function.Injective (BitVec.toNat (w := e)) := fun _ _ => BitVec.eq_of_toNat_eq
  exact Array.toList_inj.1 (hinjective.list_map hnumbers)

theorem Marked.push {seen : Array Bool} {table : Array (BitVec e)}
    (hmarked : Marked size seen table) (hwide : size ≤ 2 ^ e) {value : Nat}
    (hvalue : value < size) :
    Marked size (seen.setIfInBounds value true) (table.push (BitVec.ofNat e value)) where
  size_seen := by rw [Array.size_setIfInBounds, hmarked.size_seen]
  mem_iff := by
    intro number
    rw [numbers_push (Nat.lt_of_lt_of_le hvalue hwide), List.mem_append, List.mem_singleton,
      ← hmarked.mem_iff number]
    by_cases heq : value = number
    · subst heq
      simp [Array.getD_eq_getD_getElem?, hmarked.size_seen, hvalue]
    · have hne : ¬ number = value := fun h => heq h.symm
      simp [Array.getD_eq_getD_getElem?, heq, hne]

section

variable {tokens : List (List Char)}

theorem Marked.follows_readEntries {seen : Array Bool} {table : Array (BitVec e)} {count : Nat}
    (hmarked : Marked size seen table) (hwide : size ≤ 2 ^ e) (hcount : table.size + count = size)
    (i j : Nat) :
    (format size).Follows tokens (i :: j :: table.toList.map BitVec.toNat)
      (readEntries e size count seen table) fun read => i :: j :: read.toList.map BitVec.toNat := by
  -- the marks and the table grow together, by the entry that has been read
  induction count generalizing seen table with
  | zero => exact Follows.pure rfl
  | succ count ih =>
      intro hvalues
      have hplace : (i :: j :: table.toList.map BitVec.toNat).length < (format size).count := by
        simp only [List.length_cons, List.length_map, Array.length_toList, format]
        omega
      rcases hvalues.numberBelow_cases hplace rfl with
        ⟨token, value, htoken, hread, hlt, hrun⟩ | ⟨cause, hrun, hleftmost⟩
      · have hbelow : ∀ limit, some size = some limit → value < limit := by
          rintro limit ⟨⟩
          exact hlt
        by_cases hseen : seen.getD value false = true
        · have hmem : value ∈ table.toList.map BitVec.toNat := (hmarked.mem_iff value).1 hseen
          have hleftmost := hvalues.leftmost_repeatedEntry hplace htoken hread hbelow hmem
          refine .inr ⟨_, ?_, hleftmost⟩
          rw [readEntries, bind_of_ok hrun, if_pos hseen]
          rfl
        · rw [readEntries, bind_of_ok hrun, if_neg hseen]
          have hnew : value ∉ table.toList.map BitVec.toNat := mt (hmarked.mem_iff value).2 hseen
          have hpushed := hvalues.push hplace htoken hread hbelow hnew
          have hrest := ih (hmarked.push hwide hlt) (by simp; omega)
          rw [numbers_push (Nat.lt_of_lt_of_le hlt hwide)] at hrest
          exact hrest hpushed
      · exact .inr ⟨cause, Reader.fst_bind_of_error hrun, hleftmost⟩

theorem State.follows_readState (hwide : size ≤ 2 ^ e) :
    (format size).Follows tokens [] (readState e size) savedValues := by
  refine Follows.numberBelow_bind (by simp [format]) rfl (by simp) fun i _ => ?_
  refine Follows.numberBelow_bind (by simp [format]) rfl (by simp [format]) fun j _ => ?_
  exact Follows.bind ((marked_empty e size).follows_readEntries hwide (by simp) i j) fun table =>
    Follows.pure rfl

end

theorem size_of_readEntries {seen : Array Bool} {table read : Array (BitVec e)} {count : Nat}
    {reader after : Reader}
    (hread : readEntries e size count seen table reader = (.ok read, after)) :
    read.size = table.size + count := by
  induction count generalizing seen table reader with
  | zero =>
      obtain ⟨rfl, -⟩ := pure_eq_ok.1 hread
      rfl
  | succ count ih =>
      obtain ⟨value, between, -, hrest⟩ := bind_eq_ok.1 hread
      split at hrest
      · exact absurd hrest throw_ne_ok
      · rw [ih hrest, Array.size_push, Nat.add_right_comm, Nat.add_assoc]

theorem State.size_of_readState {s : State e} {reader after : Reader}
    (hread : readState e size reader = (.ok s, after)) : s.size = size := by
  obtain ⟨i, _, -, hread⟩ := bind_eq_ok.1 hread
  obtain ⟨j, _, -, hread⟩ := bind_eq_ok.1 hread
  obtain ⟨table, _, htable, hread⟩ := bind_eq_ok.1 hread
  obtain ⟨rfl, -⟩ := pure_eq_ok.1 hread
  exact (size_of_readEntries htable).trans (Nat.zero_add size)

/-! ### Saved values -/

namespace State

@[simp] theorem length_savedValues (s : State e) : s.savedValues.length = s.size + 2 := by
  simp [savedValues, size]

theorem savedValues_injective : Function.Injective (savedValues : State e → List Nat) := by
  intro s t hvalues
  obtain ⟨hi, htail⟩ := List.cons.inj hvalues
  obtain ⟨hj, hnumbers⟩ := List.cons.inj htail
  exact eq_of_parts hi hj (eq_of_numbers_eq hnumbers)

theorem Valid.savedValues_lt {s : State e} (hs : s.Valid) :
    ∀ value ∈ s.savedValues, value < s.size := by
  have hnumbers : ∀ number ∈ s.numbers, number < s.size := fun number hmem =>
    List.mem_range.1 (hs.perm.mem_iff.1 hmem)
  exact List.forall_mem_cons.2 ⟨hs.i_lt, List.forall_mem_cons.2 ⟨hs.j_lt, hnumbers⟩⟩

end State

variable {shape : Shape}

theorem Shape.Supports.lt_uint64 (hsize : shape.Supports size) : size < UInt64.size := by
  have hfull : shape.fullSize ≤ 2 ^ 16 := by
    rw [shape.fullSize_eq]
    exact Nat.pow_le_pow_right Nat.two_pos shape.bits_le
  exact Nat.lt_of_le_of_lt (Nat.le_trans hsize.2 hfull) (by decide)

theorem fits_savedValues_iff {s : Arc4 shape} (hsize : shape.Supports size) :
    (format size).Fits s.savedValues ↔ s.size = size ∧ s.Valid := by
  constructor
  · intro hfits
    have hlength : s.size = size :=
      Nat.add_right_cancel (s.length_savedValues.symm.trans hfits.length_eq)
    have hlt : ∀ value ∈ s.savedValues, value < s.size := by
      intro value hmem
      obtain ⟨place, hvalue⟩ := List.mem_iff_getElem?.1 hmem
      rw [hlength]
      exact hfits.lt_limit place value hvalue size rfl
    obtain ⟨hi, hlt⟩ := List.forall_mem_cons.1 hlt
    obtain ⟨hj, hlt⟩ := List.forall_mem_cons.1 hlt
    have hperm := State.perm_range_of_nodup hfits.nodup fun number hmem =>
      s.length_numbers.symm ▸ hlt number hmem
    exact ⟨hlength, hi, hj, s.length_numbers ▸ hperm⟩
  · intro ⟨hlength, hs⟩
    refine ⟨?_, ?_, ?_, hs.perm.nodup_iff.2 List.nodup_range⟩
    · rw [s.length_savedValues, hlength]
      rfl
    · intro value hmem
      exact Nat.lt_trans (hs.savedValues_lt value hmem) (hlength.symm ▸ hsize.lt_uint64)
    · intro place value hvalue limit hlimit
      rw [← Option.some.inj hlimit, ← hlength]
      exact hs.savedValues_lt value (List.mem_of_getElem? hvalue)

/-! ### Decoders -/

theorem decodedBy_decodeSized (hsize : shape.Supports size) :
    (format size).DecodedBy (fun s : Arc4 shape => s.savedValues) (decodeSized size) := by
  have hlength : ∀ {reader after : Reader} {s : State shape.entry},
      readState shape.entry size reader = (.ok s, after) →
        s.savedValues.length = (format size).count := by
    intro reader after s hread
    rw [State.length_savedValues, State.size_of_readState hread]
    rfl
  have hstate := decodedBy_of_follows
    (fun _ => State.follows_readState hsize.le_two_pow_entry) hlength
  exact hstate.map Arc4.mk fun _ => rfl

theorem savedValues_injective :
    Function.Injective fun s : Arc4 shape => s.toState.savedValues :=
  fun _ _ hvalues => congrArg Arc4.mk (State.savedValues_injective hvalues)

theorem decodeWithSize_eq (hsize : shape.Supports size) (text : String) :
    (decodeWithSize size text : Except Error (Arc4 shape)) = decodeSized size text := by
  rw [decodeWithSize, checkSize, if_pos hsize]
  rfl

theorem decodeSized_eq_ok {s : Arc4 shape} {text : String} (hsize : shape.Supports size) :
    decodeSized size text = .ok s ↔
      s.size = size ∧ s.Valid ∧
        (tokens text.toList).map Decimal.read? = s.savedValues.map some := by
  rw [(decodedBy_decodeSized hsize).eq_ok_iff savedValues_injective, fits_savedValues_iff hsize,
    and_assoc]

theorem valid_of_decodeSized {s : Arc4 shape} {text : String} (hsize : shape.Supports size)
    (hdecode : decodeSized size text = .ok s) : s.size = size ∧ s.Valid :=
  have hstate := (decodeSized_eq_ok hsize).1 hdecode
  ⟨hstate.1, hstate.2.1⟩

end Keystream.Arc4
