import Keystream.Proofs.Arc4.Discard
import Keystream.Proofs.Draw.First
import Mathlib.Algebra.BigOperators.Intervals
import Mathlib.Algebra.BigOperators.Ring.Finset
import Mathlib.Algebra.Order.Floor.Div
import Mathlib.Tactic.Ring

/-!
# Words assembled from chunks

A word is set together from the outputs of as many steps as cover it. An output has no more bits
than an index of a full table, and the next one is set behind these, so nothing is set twice: the
word is the sum of the outputs at their places, and only the end of the last output may be lost. The
outputs depend on the table and not on the width of the words. So engines with words of different
widths read one stream, and a wide word is as good as the narrow words that are as long together.
-/

namespace Keystream

namespace Word

theorem chunkCount_eq (wordBits chunkBits : Nat) :
    chunkCount wordBits chunkBits = wordBits ⌈/⌉ chunkBits :=
  (Nat.ceilDiv_eq_add_pred_div wordBits chunkBits).symm

theorem chunkCount_le_iff {wordBits chunkBits count : Nat} (hchunk : 0 < chunkBits) :
    chunkCount wordBits chunkBits ≤ count ↔ wordBits ≤ chunkBits * count := by
  rw [chunkCount_eq, ceilDiv_le_iff_le_mul hchunk]

theorem chunkCount_mul {chunkBits : Nat} (hchunk : 0 < chunkBits) (count : Nat) :
    chunkCount (chunkBits * count) chunkBits = count := by
  apply Nat.le_antisymm
  · rw [chunkCount_le_iff hchunk]
  · exact Nat.le_of_mul_le_mul_left ((chunkCount_le_iff hchunk).1 (Nat.le_refl _)) hchunk

theorem toNat_orShifted {w shift : Nat} {word : BitVec w} (hword : word.toNat < 2 ^ shift)
    (chunk : Nat) :
    (orShifted word chunk shift).toNat = (word.toNat + chunk * 2 ^ shift) % 2 ^ w := by
  have hplaced : (BitVec.ofNat w chunk <<< shift).toNat = chunk * 2 ^ shift % 2 ^ w := by
    rw [BitVec.toNat_shiftLeft, BitVec.toNat_ofNat, Nat.shiftLeft_eq, Nat.mod_mul_mod]
  have hdvd : 2 ^ shift ∣ chunk * 2 ^ shift % 2 ^ w := by
    rcases Nat.le_total shift w with hle | hge
    · exact (Nat.dvd_mod_iff (Nat.pow_dvd_pow 2 hle)).2 (Nat.dvd_mul_left _ _)
    · have hnone : 2 ^ w ∣ chunk * 2 ^ shift :=
        Nat.dvd_trans (Nat.pow_dvd_pow 2 hge) (Nat.dvd_mul_left _ _)
      rw [Nat.mod_eq_zero_of_dvd hnone]
      exact Nat.dvd_zero _
  obtain ⟨high, hhigh⟩ := hdvd
  have hsum : (orShifted word chunk shift).toNat = word.toNat + chunk * 2 ^ shift % 2 ^ w := by
    rw [orShifted, BitVec.toNat_or, hplaced, hhigh, Nat.or_comm,
      ← Nat.two_pow_add_eq_or_of_lt hword, Nat.add_comm]
  rw [← Nat.mod_eq_of_lt (orShifted word chunk shift).isLt, hsum, Nat.add_mod_mod]

end Word

namespace Arc4

namespace State

variable {e bits : Nat} {s : State e}

/-- The output of step number `k`, where the next step has number zero. -/
def chunkAt (k : Nat) (s : State e) : Nat :=
  (s.advance k).step.1

/-- The number whose digits of `bits` bits are the next `count` outputs, lowest digit first. -/
def assembled (bits count : Nat) (s : State e) : Nat :=
  ∑ k ∈ Finset.range count, s.chunkAt k * 2 ^ (bits * k)

theorem chunkAt_add (count k : Nat) (s : State e) :
    s.chunkAt (count + k) = (s.advance count).chunkAt k := by
  rw [chunkAt, chunkAt, advance_add]

theorem Valid.chunkAt_lt (hs : s.Valid) (k : Nat) : s.chunkAt k < s.size := by
  have hlt : s.chunkAt k < ((s.advance k).stir 0).size := ((hs.advance k).stir 0).entryAt_lt _
  rwa [size_stir, size_advance] at hlt

theorem gather_fst {w : Nat} (hbits : 0 < bits) (shift : Nat) (word : BitVec w) (s : State e) :
    (s.gather bits hbits shift word).1 =
      (List.range (Word.chunkCount (w - shift) bits)).foldl
        (fun word k => Word.orShifted word (s.chunkAt k) (shift + bits * k)) word := by
  fun_induction gather bits hbits shift word s with
  | case1 shift word s hshift chunk stepped hstep ih =>
      obtain ⟨rfl, rfl⟩ := Prod.mk.inj hstep
      rw [ih, Word.chunkCount_of_pos (Nat.sub_pos_of_lt hshift) hbits, Nat.sub_sub,
        List.range_succ_eq_map, List.foldl_cons, List.foldl_map]
      congr 1
      funext word k
      rw [Nat.succ_eq_add_one, Nat.add_comm k, chunkAt_add, Nat.mul_add, Nat.mul_one, Nat.add_assoc]
      rfl
  | case2 shift word s hshift =>
      rw [Nat.sub_eq_zero_of_le (Nat.le_of_not_lt hshift), Word.chunkCount_zero hbits,
        List.range_zero, List.foldl_nil]

theorem assembled_succ (bits count : Nat) (s : State e) :
    s.assembled bits (count + 1) =
      2 ^ (bits * count) * s.chunkAt count + s.assembled bits count := by
  rw [assembled, Finset.sum_range_succ, ← assembled, Nat.add_comm, Nat.mul_comm]

theorem assembled_add (bits count more : Nat) (s : State e) :
    s.assembled bits (count + more) =
      s.assembled bits count + (s.advance count).assembled bits more * 2 ^ (bits * count) := by
  have hmore : (s.advance count).assembled bits more * 2 ^ (bits * count) =
      ∑ k ∈ Finset.range more, s.chunkAt (count + k) * 2 ^ (bits * (count + k)) := by
    rw [assembled, Finset.sum_mul]
    apply Finset.sum_congr rfl
    intro k _
    rw [chunkAt_add, Nat.mul_assoc, ← Nat.pow_add, Nat.mul_add, Nat.add_comm]
  rw [hmore, assembled, Finset.sum_range_add, assembled]

theorem assembled_mul (bits count groups : Nat) (s : State e) :
    s.assembled bits (count * groups) = ∑ k ∈ Finset.range groups,
      (s.advance (count * k)).assembled bits count * 2 ^ (bits * count * k) := by
  induction groups with
  | zero => rfl
  | succ groups ih =>
      rw [Nat.mul_succ, assembled_add, ih, Finset.sum_range_succ, Nat.mul_assoc bits]

namespace Valid

theorem assembled_lt (hs : s.Valid) (hsize : s.size ≤ 2 ^ bits) (count : Nat) :
    s.assembled bits count < 2 ^ (bits * count) := by
  induction count with
  | zero => exact Nat.one_pos
  | succ count ih =>
      have hchunk : s.chunkAt count + 1 ≤ 2 ^ bits := Nat.lt_of_lt_of_le (hs.chunkAt_lt count) hsize
      calc s.assembled bits (count + 1)
        _ = 2 ^ (bits * count) * s.chunkAt count + s.assembled bits count := assembled_succ ..
        _ < 2 ^ (bits * count) * s.chunkAt count + 2 ^ (bits * count) := Nat.add_lt_add_left ih _
        _ = 2 ^ (bits * count) * (s.chunkAt count + 1) := (Nat.mul_succ _ _).symm
        _ ≤ 2 ^ (bits * count) * 2 ^ bits := Nat.mul_le_mul_left _ hchunk
        _ = 2 ^ (bits * (count + 1)) := by rw [Nat.mul_succ, Nat.pow_add]

theorem testBit_assembled (hs : s.Valid) (hsize : s.size ≤ 2 ^ bits) {count bit : Nat}
    (hbit : bit < bits * count) :
    (s.assembled bits count).testBit bit = (s.chunkAt (bit / bits)).testBit (bit % bits) := by
  induction count with
  | zero => exact absurd hbit (Nat.not_lt_zero bit)
  | succ count ih =>
      rw [assembled_succ, Nat.testBit_two_pow_mul_add _ (hs.assembled_lt hsize count)]
      rcases Nat.lt_or_ge bit (bits * count) with hlow | hhigh
      · rw [if_pos hlow, ih hlow]
      · have hdiv : bit / bits = count := by
          rw [Nat.mul_comm] at hhigh hbit
          exact Nat.div_eq_of_lt_le hhigh hbit
        have hmod : bit % bits = bit - bits * count := by rw [Nat.mod_eq_sub_mul_div, hdiv]
        rw [if_neg (Nat.not_lt.2 hhigh), hdiv, hmod]

/-- The outputs never meet in a word, so setting them into it sums them up. -/
theorem toNat_foldl_orShifted {w : Nat} (hs : s.Valid) (hsize : s.size ≤ 2 ^ bits) (count : Nat) :
    ((List.range count).foldl
      (fun word k => Word.orShifted word (s.chunkAt k) (bits * k)) (0 : BitVec w)).toNat =
        s.assembled bits count % 2 ^ w := by
  induction count with
  | zero => rfl
  | succ count ih =>
      have hfree : s.assembled bits count % 2 ^ w < 2 ^ (bits * count) :=
        Nat.lt_of_le_of_lt (Nat.mod_le _ _) (hs.assembled_lt hsize count)
      rw [← ih] at hfree
      rw [List.range_succ, List.foldl_append, List.foldl_cons, List.foldl_nil,
        Word.toNat_orShifted hfree, ih, Nat.mod_add_mod, assembled_succ, Nat.add_comm, Nat.mul_comm]

end Valid

end State

def Shape.withWord (shape : Shape) (word : Nat) : Shape :=
  { shape with word := word }

variable {shape : Shape} {s : Arc4 shape}

/-- The engine in the same state with words of another width. -/
def withWord (word : Nat) (s : Arc4 shape) : Arc4 (shape.withWord word) :=
  ⟨s.toState⟩

theorem next_snd (s : Arc4 shape) :
    (Engine.next s).2 = ⟨s.advance (Word.chunkCount shape.word shape.bits)⟩ :=
  Move.next_apply s

theorem next_fst (s : Arc4 shape) :
    (Engine.next s).1 = (List.range (Word.chunkCount shape.word shape.bits)).foldl
      (fun word k => Word.orShifted word (s.chunkAt k) (shape.bits * k)) 0 := by
  have hgather := State.gather_fst shape.bits_pos 0 (0 : BitVec shape.word) s.toState
  simp only [Nat.sub_zero, Nat.zero_add] at hgather
  exact hgather

theorem toNat_next_fst (hs : s.Valid) (hsize : s.size ≤ 2 ^ shape.bits) :
    (Engine.next s).1.toNat =
      s.assembled shape.bits (Word.chunkCount shape.word shape.bits) % 2 ^ shape.word := by
  rw [next_fst, hs.toNat_foldl_orShifted hsize]

theorem chunkCount_withWord (shape : Shape) (count : Nat) :
    Word.chunkCount (shape.withWord (shape.bits * count)).word
      (shape.withWord (shape.bits * count)).bits = count :=
  Word.chunkCount_mul shape.bits_pos count

theorem toNat_next_withWord (hs : s.Valid) (hsize : s.size ≤ 2 ^ shape.bits) (count : Nat) :
    (Engine.next (s.withWord (shape.bits * count))).1.toNat = s.assembled shape.bits count := by
  have hword := toNat_next_fst (s := s.withWord (shape.bits * count)) hs hsize
  rw [chunkCount_withWord] at hword
  exact hword.trans (Nat.mod_eq_of_lt (hs.assembled_lt hsize count))

theorem after_withWord (count words : Nat) (s : Arc4 shape) :
    Engine.after words (s.withWord (shape.bits * count)) =
      withWord (shape.bits * count) (⟨s.advance (count * words)⟩ : Arc4 shape) := by
  rw [Engine.after, advanceBy_next, chunkCount_withWord, Nat.mul_comm words]
  rfl

/-- **Words are assembled from the outputs of the steps, lowest first.** No two outputs meet in a
word, so it is their sum, without the bits past its end. Engines in one state whose words differ in
width read one stream. -/
theorem words_assembled (hs : s.Valid) (hsize : s.size ≤ 2 ^ shape.bits) :
    let steps := shape.word ⌈/⌉ shape.bits
    (Engine.next s).2 = ⟨s.advance steps⟩ ∧
      (Engine.next s).1.toNat =
        (∑ k ∈ Finset.range steps, s.chunkAt k * 2 ^ (shape.bits * k)) % 2 ^ shape.word ∧
      ((Engine.next s).1 = (List.range steps).foldl
          (fun word k => Word.orShifted word (s.chunkAt k) (shape.bits * k)) 0 ∧
        ∀ k < steps, shape.bits * k < shape.word) ∧
      ((∀ k, s.chunkAt k < 2 ^ shape.bits) ∧
        ∀ bit < shape.word, (Engine.next s).1.getLsbD bit =
          (s.chunkAt (bit / shape.bits)).testBit (bit % shape.bits)) ∧
      ∀ width words, shape.bits ∣ width →
        (Engine.next (s.withWord (width * words))).1.toNat =
            ∑ k ∈ Finset.range words,
              (Engine.wordAt k (s.withWord width)).toNat * 2 ^ (width * k) ∧
          (Engine.next (s.withWord (width * words))).2.toState =
            (Engine.after words (s.withWord width)).toState := by
  intro steps
  have hsteps : Word.chunkCount shape.word shape.bits = steps := Word.chunkCount_eq ..
  have hplaces : ∀ k, k < steps ↔ shape.bits * k < shape.word := by
    intro k
    rw [← hsteps, ← Nat.not_le, Word.chunkCount_le_iff shape.bits_pos, Nat.not_le]
  have hsum := toNat_next_fst hs hsize
  rw [hsteps] at hsum
  refine ⟨hsteps ▸ next_snd s, hsum, ⟨hsteps ▸ next_fst s, fun k => (hplaces k).1⟩, ⟨?_, ?_⟩, ?_⟩
  · intro k
    exact Nat.lt_of_lt_of_le (hs.chunkAt_lt k) hsize
  · intro bit hbit
    have hwithin : bit < shape.bits * steps :=
      Nat.lt_of_lt_of_le hbit ((Word.chunkCount_le_iff shape.bits_pos).1 (Nat.le_of_eq hsteps))
    rw [← BitVec.testBit_toNat, hsum, Nat.testBit_mod_two_pow, decide_eq_true hbit, Bool.true_and,
      hs.testBit_assembled hsize hwithin]
  · rintro width words ⟨count, rfl⟩
    refine ⟨?_, ?_⟩
    · rw [Nat.mul_assoc, toNat_next_withWord hs hsize, State.assembled_mul]
      apply Finset.sum_congr rfl
      intro k _
      rw [Engine.wordAt, after_withWord,
        toNat_next_withWord (hs.advance _) (by rwa [State.size_advance])]
    · rw [after_withWord, Nat.mul_assoc, next_snd, chunkCount_withWord]
      rfl

/-- Three outputs of three bits in a word of eight: the last bit of all falls off the end. -/
theorem words_assembled_overhang :
    let s : Arc4 ⟨8, 8, 3, by decide, by decide, by decide⟩ := ⟨⟨4, 2, #[0, 1, 2, 4, 3]⟩⟩
    s.Valid ∧ s.size ≤ 2 ^ 3 ∧ 3 ∣ 6 ∧ (List.range 3).map s.chunkAt = [0, 2, 4] ∧
      (Engine.next s).1.toNat = 16 ∧
      (Engine.next (s.withWord (6 * 4))).1.toNat =
        ∑ k ∈ Finset.range 4, (Engine.wordAt k (s.withWord 6)).toNat * 2 ^ (6 * k) := by
  intro s
  have hs : s.Valid := ⟨by decide, by decide, by decide⟩
  have hsize : s.size ≤ 2 ^ 3 := by decide
  have hdvd : 3 ∣ 6 := by decide
  obtain ⟨-, hsum, -, -, hshared⟩ := words_assembled hs hsize
  exact ⟨hs, hsize, hdvd, by decide, hsum.trans (by decide), (hshared 6 4 hdvd).1⟩

end Arc4

end Keystream
