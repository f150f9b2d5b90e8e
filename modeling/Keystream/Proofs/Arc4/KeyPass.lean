import Keystream.Proofs.Arc4.Cursor
import Mathlib.Data.Nat.ModEq

/-!
# What a pass takes from its key

Each turn of a key-schedule pass adds one entry of the key to `j`, and `j` is counted modulo the
size of the table. So a pass takes from a key as many entries as the table has, from the first one
again after the last, and only their remainders. Keys that agree in these schedule alike. Keys that
do not are told apart in the first turn in which they differ: up to there both passes have made the
same exchanges, and there they exchange the same place with two different ones.
-/

namespace Keystream.Arc4

namespace State

variable {e : Nat} {s : State e} {key key' : Array (BitVec e)}

/-- What turn `n` of a pass takes from a key. -/
def turnEntry (key : Array (BitVec e)) (n : Nat) : Nat :=
  (key.getD (n % key.size) 0).toNat

/-- The first `count` turns take the same from both keys, as a table of `size` entries counts. -/
def AgreeFor (size count : Nat) (key key' : Array (BitVec e)) : Prop :=
  ∀ n < count, turnEntry key n ≡ turnEntry key' n [MOD size]

/-! ### One turn -/

theorem stir_congr {added added' : Nat} (hsame : added ≡ added' [MOD s.size]) :
    s.stir added = s.stir added' := by
  have hj : (s.stir added).j = (s.stir added').j := hsame.add_left _
  refine eq_of_parts rfl hj ?_
  rw [table_stir, table_stir, hj, i_stir, i_stir]

theorem modEq_of_j_stir_eq {added added' : Nat} (hj : (s.stir added).j = (s.stir added').j) :
    added ≡ added' [MOD s.size] :=
  Nat.ModEq.add_left_cancel' _ hj

theorem passed_succ_eq (key : Array (BitVec e)) (s : State e) (n : Nat) :
    s.passed key (n + 1) = (s.passed key n).stir (turnEntry key n) :=
  passed_succ key s n

theorem Valid.passed_succ_parts (hs : s.Valid) (key : Array (BitVec e)) (n : Nat) :
    s.passed key (n + 1) = ⟨(s.i + n) % s.size, (s.passed key (n + 1)).j,
      (s.passed key n).table.swapIfInBounds ((s.i + n) % s.size) (s.passed key (n + 1)).j⟩ := by
  have hi : (s.passed key (n + 1)).i = (s.i + n) % s.size :=
    calc (s.passed key (n + 1)).i
      _ = (s.i + s.size - 1 + (n + 1)) % s.size := i_passed key s (n + 1)
      _ = (s.i + n + s.size) % s.size := by
          congr 1
          have hpos := hs.size_pos
          omega
      _ = (s.i + n) % s.size := Nat.add_mod_right _ _
  refine eq_of_parts hi rfl ?_
  rw [passed_succ_eq, table_stir, ← passed_succ_eq, hi]

/-! ### Whole passes -/

theorem passed_congr {count : Nat} (hagree : AgreeFor s.size count key key') :
    s.passed key count = s.passed key' count := by
  induction count with
  | zero => rfl
  | succ count ih =>
      rw [passed_succ_eq, passed_succ_eq, ih fun n hn => hagree n (Nat.lt_succ_of_lt hn)]
      apply stir_congr
      rw [size_passed]
      exact hagree count (Nat.lt_succ_self count)

theorem schedule_congr (hagree : AgreeFor s.size s.size key key') :
    s.schedule key = s.schedule key' := by
  rw [schedule_eq, schedule_eq, passed_congr hagree]

theorem j_passed_succ_ne {n : Nat} (hagree : AgreeFor s.size n key key')
    (hdiffer : ¬ turnEntry key n ≡ turnEntry key' n [MOD s.size]) :
    (s.passed key (n + 1)).j ≠ (s.passed key' (n + 1)).j := by
  rw [passed_succ_eq, passed_succ_eq, passed_congr hagree]
  intro hj
  have hsame := modEq_of_j_stir_eq hj
  rw [size_passed] at hsame
  exact hdiffer hsame

/-! ### Keys that agree -/

/-- A key that goes around another one a whole number of times. -/
theorem turnEntry_of_repeats (hrepeats : key.size ∣ key'.size) (hkey' : 0 < key'.size)
    (hentries : ∀ k < key'.size, key'[k]? = key[k % key.size]?) (n : Nat) :
    turnEntry key' n = turnEntry key n := by
  rw [turnEntry, turnEntry, Array.getD_eq_getD_getElem?, Array.getD_eq_getD_getElem?,
    hentries _ (Nat.mod_lt n hkey'), Nat.mod_mod_of_dvd n hrepeats]

theorem agreeFor_of_remainders {size : Nat} (hkey : 0 < key.size) (hsize : key'.size = key.size)
    (hentries : ∀ k < key.size, (key'.getD k 0).toNat ≡ (key.getD k 0).toNat [MOD size])
    (count : Nat) : AgreeFor size count key' key := by
  intro n _
  rw [turnEntry, turnEntry, hsize]
  exact hentries (n % key.size) (Nat.mod_lt n hkey)

theorem agreeFor_of_beginning {count : Nat} (hkey : count ≤ key.size) (hkey' : count ≤ key'.size)
    (hentries : ∀ k < count, key'[k]? = key[k]?) (size : Nat) : AgreeFor size count key' key := by
  intro n hn
  rw [turnEntry, turnEntry, Nat.mod_eq_of_lt (Nat.lt_of_lt_of_le hn hkey),
    Nat.mod_eq_of_lt (Nat.lt_of_lt_of_le hn hkey'), Array.getD_eq_getD_getElem?,
    Array.getD_eq_getD_getElem?, hentries n hn]

end State

open State

variable {shape : Shape} {s : Arc4 shape}

theorem rekey_congr {key key' : Array (BitVec shape.entry)} (hkey : 0 < key.size)
    (hkey' : 0 < key'.size) (hagree : AgreeFor s.size s.size key key') :
    s.rekey key = s.rekey key' := by
  rw [rekey_eq_ok hkey, rekey_eq_ok hkey', schedule_congr hagree]

/-- **A key counts by what its turns take from it.** Keys of which every turn takes the same
remainder modulo the size lead to equal engines. In the first turn in which the remainders differ,
one place is exchanged with different partners under the two keys. -/
theorem key_counts_by_turns {shape : Shape} {s : Arc4 shape} (hs : s.Valid) :
    (∀ key : Array (BitVec shape.entry), 0 < key.size →
      let behind := s.passed key s.size
      s.rekey key = .ok ⟨{ behind with j := behind.i }.advance discardedSteps⟩) ∧
    (∀ key key' : Array (BitVec shape.entry), 0 < key.size → 0 < key'.size →
      (∀ n < s.size, turnEntry key n ≡ turnEntry key' n [MOD s.size]) →
      ∃ t, s.rekey key = .ok t ∧ s.rekey key' = .ok t) ∧
    (∀ key key' : Array (BitVec shape.entry), 0 < key.size → 0 < key'.size →
      (key.size ∣ key'.size → (∀ k < key'.size, key'[k]? = key[k % key.size]?) →
        s.rekey key' = s.rekey key) ∧
      (key'.size = key.size →
        (∀ k < key.size, (key'.getD k 0).toNat ≡ (key.getD k 0).toNat [MOD s.size]) →
        s.rekey key' = s.rekey key) ∧
      (s.size ≤ key.size → s.size ≤ key'.size → (∀ k < s.size, key'[k]? = key[k]?) →
        s.rekey key' = s.rekey key)) ∧
    ∀ (key key' : Array (BitVec shape.entry)) (n : Nat), n < s.size →
      (∀ m < n, turnEntry key m ≡ turnEntry key' m [MOD s.size]) →
      ¬ turnEntry key n ≡ turnEntry key' n [MOD s.size] →
      ∃ before partner partner', s.passed key n = before ∧ s.passed key' n = before ∧
        (partner < s.size ∧ partner' < s.size ∧ partner ≠ partner') ∧
        let place := (s.i + n) % s.size
        s.passed key (n + 1) = ⟨place, partner, before.table.swapIfInBounds place partner⟩ ∧
        s.passed key' (n + 1) = ⟨place, partner', before.table.swapIfInBounds place partner'⟩ := by
  refine ⟨?_, ?_, ?_, ?_⟩
  · intro key hkey behind
    rw [rekey_eq_ok hkey, schedule_eq]
  · intro key key' hkey hkey' hagree
    have hok := rekey_eq_ok hkey' s
    exact ⟨_, (rekey_congr hkey hkey' hagree).trans hok, hok⟩
  · intro key key' hkey hkey'
    refine ⟨?_, ?_, ?_⟩
    · intro hrepeats hentries
      refine rekey_congr hkey' hkey ?_
      intro n _
      rw [turnEntry_of_repeats hrepeats hkey' hentries]
    · intro hsize hentries
      exact rekey_congr hkey' hkey (agreeFor_of_remainders hkey hsize hentries _)
    · intro hlong hlong' hentries
      exact rekey_congr hkey' hkey (agreeFor_of_beginning hlong hlong' hentries _)
  · intro key key' n hn hagree hdiffer
    have hsame : s.passed key n = s.passed key' n := passed_congr hagree
    have hpartner : ∀ key, (s.passed key (n + 1)).j < s.size := by
      intro key
      rw [← size_passed key s.toState (n + 1)]
      exact (State.Valid.passed hs key (n + 1)).j_lt
    refine ⟨s.passed key n, _, _, rfl, hsame.symm,
      ⟨hpartner key, hpartner key', j_passed_succ_ne hagree hdiffer⟩, ?_, ?_⟩
    · exact State.Valid.passed_succ_parts hs key n
    · rw [hsame]
      exact State.Valid.passed_succ_parts hs key' n

/-- Keys for a table of three entries. Two of them go separate ways in the second turn. -/
theorem key_counts_by_turns_three :
    let s : Arc4 .bytes32 := ⟨⟨1, 2, #[2, 0, 1]⟩⟩
    (∃ t, s.rekey #[5] = .ok t ∧ s.rekey #[2, 8] = .ok t) ∧
      s.rekey #[1, 2, 1, 2] = s.rekey #[1, 2] ∧
      s.rekey #[4, 254] = s.rekey #[1, 2] ∧
      s.rekey #[1, 2, 0, 7] = s.rekey #[1, 2, 0] ∧
      ∃ before partner partner', s.passed #[1, 2] 1 = before ∧ s.passed #[1, 0, 5] 1 = before ∧
        (partner < 3 ∧ partner' < 3 ∧ partner ≠ partner') ∧
        s.passed #[1, 2] 2 = ⟨2, partner, before.table.swapIfInBounds 2 partner⟩ ∧
        s.passed #[1, 0, 5] 2 = ⟨2, partner', before.table.swapIfInBounds 2 partner'⟩ := by
  intro s
  have hs : s.Valid := ⟨by decide, by decide, by decide⟩
  obtain ⟨-, hagree, hsame, hdiffer⟩ := key_counts_by_turns hs
  refine ⟨hagree #[5] #[2, 8] (by decide) (by decide) (by decide), ?_, ?_, ?_, ?_⟩
  · exact (hsame #[1, 2] #[1, 2, 1, 2] (by decide) (by decide)).1 (by decide) (by decide)
  · exact (hsame #[1, 2] #[4, 254] (by decide) (by decide)).2.1 rfl (by decide)
  · exact (hsame #[1, 2, 0] #[1, 2, 0, 7] (by decide) (by decide)).2.2 (by decide) (by decide)
      (by decide)
  · exact hdiffer #[1, 2] #[1, 0, 5] 1 (by decide) (by decide) (by decide)

end Keystream.Arc4
