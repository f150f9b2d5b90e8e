import Keystream.Proofs.ChaCha.Rows
import Keystream.Proofs.Word

/-!
# Rounds taken back

A quarter round adds, mixes by exclusive or and rotates, and each word that it changes is changed by
words that are still there afterwards. So it can be taken back, the last change first. On a block it
works on four different places, and these hold its result afterwards, from which the words that
stood there can be told. Taking back the quarter rounds of any number of double rounds, the last one
first, thus restores the block, and in the same way every block is the outcome of rounds. Nothing is
lost before the input is added: no two blocks become the same one.
-/

namespace Keystream.ChaCha

open Function

/-! ### Rotations -/

def rotateRight (x count : UInt32) : UInt32 :=
  rotateLeft x (32 - count)

theorem toNat_sub_mod_32 (count : UInt32) :
    (32 - count).toNat % 32 = (32 - count.toNat % 32) % 32 := by
  have hlt := count.toNat_lt
  change (4294967296 - count.toNat + 32) % 4294967296 % 32 = _
  omega

theorem toBitVec_rotateLeft (x count : UInt32) :
    (rotateLeft x count).toBitVec = x.toBitVec.rotateLeft count.toNat := by
  have hup : (count.toBitVec % 32).toNat = count.toNat % 32 := rfl
  have hdown : ((32 - count).toBitVec % 32).toNat = (32 - count.toNat % 32) % 32 :=
    toNat_sub_mod_32 count
  rw [rotateLeft, UInt32.toBitVec_or, UInt32.toBitVec_shiftLeft, UInt32.toBitVec_shiftRight,
    BitVec.shiftLeft_eq', BitVec.ushiftRight_eq', hup, hdown, BitVec.rotateLeft_def]
  -- by a full turn, `rotateLeft` shifts by nothing both times, and a bit vector right by all bits
  rcases Nat.eq_zero_or_pos (count.toNat % 32) with hzero | hpos
  · rw [hzero, BitVec.ushiftRight_eq_zero (Nat.le_refl 32)]
    simp
  · rw [Nat.mod_eq_of_lt (by omega : 32 - count.toNat % 32 < 32)]

theorem rotateLeft_rotateLeft (x : UInt32) {count more : UInt32}
    (haround : (count.toNat + more.toNat) % 32 = 0) :
    rotateLeft (rotateLeft x count) more = x := by
  apply UInt32.toBitVec_inj.1
  rw [toBitVec_rotateLeft, toBitVec_rotateLeft, Word.rotateLeft_rotateLeft _ haround]

theorem toNat_add_toNat_sub_mod_32 (count : UInt32) :
    (count.toNat + (32 - count).toNat) % 32 = 0 := by
  rw [Nat.add_mod, toNat_sub_mod_32]
  omega

theorem rotateRight_rotateLeft (x count : UInt32) : rotateRight (rotateLeft x count) count = x :=
  rotateLeft_rotateLeft x (toNat_add_toNat_sub_mod_32 count)

theorem rotateLeft_rotateRight (x count : UInt32) :
    rotateLeft (rotateRight x count) count = x := by
  have haround := toNat_add_toNat_sub_mod_32 count
  rw [Nat.add_comm] at haround
  exact rotateLeft_rotateLeft x haround

/-! ### The quarter round -/

namespace Quad

/-- One half of a quarter round. The two halves differ in how far they rotate. -/
def mix (first second : UInt32) : Quad → Quad
  | (a, b, c, d) =>
      let a := a + b
      let d := rotateLeft (d ^^^ a) first
      let c := c + d
      let b := rotateLeft (b ^^^ c) second
      (a, b, c, d)

def unmix (first second : UInt32) : Quad → Quad
  | (a, b, c, d) =>
      let b := rotateRight b second ^^^ c
      let c := c - d
      let d := rotateRight d first ^^^ a
      let a := a - b
      (a, b, c, d)

def unquarterRound (words : Quad) : Quad :=
  (words.unmix 8 7).unmix 16 12

theorem quarterRound_eq (words : Quad) : words.quarterRound = (words.mix 16 12).mix 8 7 := rfl

theorem unmix_mix (first second : UInt32) (words : Quad) :
    (words.mix first second).unmix first second = words := by
  obtain ⟨a, b, c, d⟩ := words
  simp only [mix, unmix, rotateRight_rotateLeft, UInt32.xor_assoc, UInt32.xor_self,
    UInt32.xor_zero, UInt32.add_sub_cancel]

theorem mix_unmix (first second : UInt32) (words : Quad) :
    (words.unmix first second).mix first second = words := by
  obtain ⟨a, b, c, d⟩ := words
  simp only [mix, unmix, UInt32.sub_add_cancel, UInt32.xor_assoc, UInt32.xor_self,
    UInt32.xor_zero, rotateLeft_rotateRight]

theorem unquarterRound_quarterRound (words : Quad) :
    words.quarterRound.unquarterRound = words := by
  rw [quarterRound_eq, unquarterRound, unmix_mix, unmix_mix]

theorem quarterRound_unquarterRound (words : Quad) :
    words.unquarterRound.quarterRound = words := by
  rw [quarterRound_eq, unquarterRound, mix_unmix, mix_unmix]

end Quad

/-! ### Quarter rounds on a block -/

namespace Quartet

variable {g : Quartet}

def undo (g : Quartet) (block : Block) : Block :=
  g.write (g.read block).unquarterRound block

def undoAll (quartets : List Quartet) (block : Block) : Block :=
  quartets.reverse.foldl (fun block g => g.undo block) block

theorem get_undo_of_not_mem {place : Fin 16} (hplace : place ∉ g.places) (block : Block) :
    (g.undo block).get place = block.get place := by
  rw [undo, get_write_of_not_mem hplace]

theorem read_undo (g : Quartet) (block : Block) :
    g.read (g.undo block) = (g.read block).unquarterRound := by
  rw [undo, read_write]

theorem undo_run (g : Quartet) (block : Block) : g.undo (g.run block) = block := by
  apply g.ext_read
  · rw [read_undo, read_run, Quad.unquarterRound_quarterRound]
  · intro place hplace
    rw [get_undo_of_not_mem hplace, get_run_of_not_mem hplace]

theorem run_undo (g : Quartet) (block : Block) : g.run (g.undo block) = block := by
  apply g.ext_read
  · rw [read_run, read_undo, Quad.quarterRound_unquarterRound]
  · intro place hplace
    rw [get_run_of_not_mem hplace, get_undo_of_not_mem hplace]

theorem runAll_eq_foldl (quartets : List Quartet) (block : Block) :
    runAll quartets block = quartets.foldl (fun block g => g.run block) block := by
  induction quartets generalizing block with
  | nil => rfl
  | cons g later ih => exact ih (g.run block)

theorem runAll_append (quartets later : List Quartet) (block : Block) :
    runAll (quartets ++ later) block = runAll later (runAll quartets block) := by
  simp only [runAll_eq_foldl, List.foldl_append]

theorem undoAll_cons (g : Quartet) (later : List Quartet) (block : Block) :
    undoAll (g :: later) block = g.undo (undoAll later block) := by
  rw [undoAll, List.reverse_cons, List.foldl_append]
  rfl

theorem undoAll_runAll (quartets : List Quartet) (block : Block) :
    undoAll quartets (runAll quartets block) = block := by
  induction quartets generalizing block with
  | nil => rfl
  | cons g later ih => rw [runAll, undoAll_cons, ih, undo_run]

theorem runAll_undoAll (quartets : List Quartet) (block : Block) :
    runAll quartets (undoAll quartets block) = block := by
  induction quartets generalizing block with
  | nil => rfl
  | cons g later ih => rw [undoAll_cons, runAll, run_undo, ih]

/-- The quartets of so many double rounds, in the order in which they are worked on. -/
def inOrder : Nat → List Quartet
  | 0 => []
  | count + 1 => List.ofFn column ++ List.ofFn diagonal ++ inOrder count

end Quartet

/-! ### Any number of rounds -/

def undoDoubleRounds (count : Nat) : Block → Block :=
  Quartet.undoAll (Quartet.inOrder count)

theorem doubleRounds_eq_runAll (count : Nat) (block : Block) :
    doubleRounds count block = Quartet.runAll (Quartet.inOrder count) block := by
  induction count generalizing block with
  | zero => rfl
  | succ count ih =>
      rw [doubleRounds, ih, columnRound_eq, diagonalRound_eq, Quartet.inOrder,
        Quartet.runAll_append, Quartet.runAll_append]

theorem leftInverse_undoDoubleRounds (count : Nat) :
    LeftInverse (undoDoubleRounds count) (doubleRounds count) := by
  intro block
  rw [undoDoubleRounds, doubleRounds_eq_runAll, Quartet.undoAll_runAll]

theorem rightInverse_undoDoubleRounds (count : Nat) :
    RightInverse (undoDoubleRounds count) (doubleRounds count) := by
  intro block
  rw [undoDoubleRounds, doubleRounds_eq_runAll, Quartet.runAll_undoAll]

/-- **The rounds permute the blocks.** Any number of double rounds, by words or by rows, is a
bijection with an explicit inverse, so no two blocks become the same before the input is added. -/
theorem rounds_permute_blocks :
    (LeftInverse Quad.unquarterRound Quad.quarterRound ∧
      RightInverse Quad.unquarterRound Quad.quarterRound ∧ Bijective Quad.quarterRound) ∧
    ∀ count,
      (∀ block,
        doubleRounds count block =
            (Quartet.inOrder count).foldl (fun block g => g.run block) block ∧
          undoDoubleRounds count block =
            (Quartet.inOrder count).reverse.foldl (fun block g => g.undo block) block) ∧
      (LeftInverse (undoDoubleRounds count) (doubleRounds count) ∧
        RightInverse (undoDoubleRounds count) (doubleRounds count) ∧
        Bijective (doubleRounds count)) ∧
      LeftInverse (undoDoubleRounds count) (rowDoubleRounds count) ∧
        RightInverse (undoDoubleRounds count) (rowDoubleRounds count) ∧
        Bijective (rowDoubleRounds count) := by
  have hquad : LeftInverse Quad.unquarterRound Quad.quarterRound :=
    Quad.unquarterRound_quarterRound
  have hquadBack : RightInverse Quad.unquarterRound Quad.quarterRound :=
    Quad.quarterRound_unquarterRound
  refine ⟨⟨hquad, hquadBack, hquad.injective, hquadBack.surjective⟩, ?_⟩
  intro count
  have hback := leftInverse_undoDoubleRounds count
  have hforth := rightInverse_undoDoubleRounds count
  rw [rowDoubleRounds_eq]
  refine ⟨?_, ⟨hback, hforth, hback.injective, hforth.surjective⟩, hback, hforth, hback.injective,
    hforth.surjective⟩
  intro block
  rw [doubleRounds_eq_runAll, Quartet.runAll_eq_foldl]
  exact ⟨rfl, rfl⟩

end Keystream.ChaCha
