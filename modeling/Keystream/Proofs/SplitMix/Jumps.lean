import Keystream.Bytes
import Keystream.Proofs.Bytes
import Keystream.Proofs.Counting
import Keystream.Proofs.SplitMix.Period

/-!
# Every move is a jump

A SplitMix engine can be asked for words, for seed words, for numbers and for bytes, and it can be
told to skip words. Whatever it is asked for, all that happens to its state is that the counter
moves on by the outputs that were needed. So the state after a run of any moves is one jump over all
their outputs, and a seed word can be told from the counter and the number of the word alone.
-/

namespace Keystream.SplitMix

inductive Move
  | next
  | discard (count : UInt64)
  | seedWords (count : Nat)
  | next32
  | bytes (count : Nat)

def Move.apply (adapter : Adapter) : Move → SplitMix → SplitMix
  | next, s => (Engine.next s).2
  | discard count, s => Engine.discard count s
  | seedWords count, s => (SeedSource.generate count s).2
  | next32, s => ((feed adapter).next32 s).2
  | bytes count, s => ((feed adapter).bytes count s).2

/-- Two seed words share an output, and so do eight bytes. -/
def Move.outputs : Move → Nat
  | next => 1
  | discard count => count.toNat
  | seedWords count => count ⌈/⌉ 2
  | next32 => 1
  | bytes count => count ⌈/⌉ 8

def run (adapter : Adapter) : List Move → SplitMix → SplitMix
  | [], s => s
  | move :: later, s => run adapter later (move.apply adapter s)

variable {adapter : Adapter}

/-! ### Jumps -/

theorem jump_zero (s : SplitMix) : s.jump 0 = s :=
  congrArg mk (by simp)

theorem jump_jump (count more : UInt64) (s : SplitMix) :
    (s.jump count).jump more = s.jump (count + more) :=
  congrArg mk (by rw [jump, UInt64.mul_add, UInt64.add_assoc])

theorem next64_snd (s : SplitMix) : s.next64.2 = s.jump 1 :=
  congrArg mk (by rw [UInt64.mul_one])

theorem jump_one_jump (count : Nat) (s : SplitMix) :
    (s.jump 1).jump (UInt64.ofNat count) = s.jump (UInt64.ofNat (1 + count)) := by
  rw [jump_jump, UInt64.ofNat_add]
  rfl

theorem discard_eq_advanceBy (count : UInt64) (s : SplitMix) :
    Engine.discard count s = advanceBy Engine.next count.toNat s := by
  rw [advanceBy_next, advanceBy_next64, UInt64.ofNat_toNat]
  rfl

theorem seedWords_add_two (count : Nat) (s : SplitMix) :
    seedWords (count + 2) s =
      (s.next64.1.toUInt32 :: (s.next64.1 >>> 32).toUInt32 :: (seedWords count s.next64.2).1,
        (seedWords count s.next64.2).2) := rfl

theorem seedWords_snd (count : Nat) (s : SplitMix) :
    (seedWords count s).2 = s.jump (UInt64.ofNat (count ⌈/⌉ 2)) := by
  induction count using Nat.twoStepInduction generalizing s with
  | zero =>
      rw [zero_ceilDiv]
      exact (jump_zero s).symm
  | one =>
      have hcount : 1 ⌈/⌉ 2 = 1 := ceilDiv_eq_of_le (by decide) (by decide)
      rw [hcount]
      exact next64_snd s
  | more count ih _ =>
      have hcount : (count + 2) ⌈/⌉ 2 = 1 + count ⌈/⌉ 2 := by
        rw [Nat.add_comm count, ← mul_add_ceilDiv Nat.two_pos 1]
      rw [hcount, ← jump_one_jump, ← next64_snd, seedWords_add_two]
      exact ih s.next64.2

theorem bytes_snd (hadapter : adapter.Lawful) (count : Nat) (s : SplitMix) :
    ((feed adapter).bytes count s).2 = s.jump (UInt64.ofNat (count ⌈/⌉ 8)) := by
  have hfills : (feed adapter).Fills := hadapter.fills _ _
  induction count using Nat.strongRecOn generalizing s with
  | ind count ih =>
      rcases Nat.lt_or_ge count 8 with hfew | hmany
      · rcases Nat.eq_zero_or_pos count with rfl | hpos
        · rw [zero_ceilDiv, hfills.bytes_of_lt_eight hfew]
          exact (jump_zero s).symm
        · have hcount : count ⌈/⌉ 8 = 1 := ceilDiv_eq_of_le (by omega) (by omega)
          have hlast : ((feed adapter).bytes count s).2 = s.next64.2 := by
            rw [hfills.bytes_of_lt_eight hfew]
            split_ifs <;> rfl
          rw [hlast, hcount]
          exact next64_snd s
      · obtain ⟨more, rfl⟩ := Nat.exists_eq_add_of_le' hmany
        have hcount : (more + 8) ⌈/⌉ 8 = 1 + more ⌈/⌉ 8 := by
          rw [Nat.add_comm more, ← mul_add_ceilDiv (by decide) 1]
        have hfirst : ((feed adapter).next64 s).2 = s.jump 1 := next64_snd s
        rw [hfills.bytes_add_eight, hcount, ← jump_one_jump, hfirst]
        exact ih more (by omega) _

theorem Move.apply_eq_jump (hadapter : adapter.Lawful) (move : Move) (s : SplitMix) :
    move.apply adapter s = s.jump (UInt64.ofNat move.outputs) := by
  cases move with
  | next => exact next64_snd s
  | discard count =>
      rw [outputs, UInt64.ofNat_toNat]
      rfl
  | seedWords count => exact seedWords_snd count s
  | next32 => exact next64_snd s
  | bytes count => exact bytes_snd hadapter count s

theorem run_eq_jump (hadapter : adapter.Lawful) (moves : List Move) (s : SplitMix) :
    run adapter moves s = s.jump (UInt64.ofNat (moves.map Move.outputs).sum) := by
  induction moves generalizing s with
  | nil => exact (jump_zero s).symm
  | cons move later ih =>
      rw [run, ih, move.apply_eq_jump hadapter, jump_jump, List.map_cons, List.sum_cons,
        UInt64.ofNat_add]

theorem toNat_state_jump (count : Nat) (s : SplitMix) :
    (s.jump (UInt64.ofNat count)).state.toNat =
      (s.state.toNat + gamma.toNat * count) % 2 ^ 64 := by
  rw [jump, UInt64.toNat_add, UInt64.toNat_mul, UInt64.toNat_ofNat', Nat.add_mod_mod,
    ← Nat.add_mod_mod, Nat.mul_mod_mod, Nat.add_mod_mod]

/-! ### Seed words -/

/-- Half of an output: the low one at an even place, the high one at an odd place. -/
def halfAt (place : Nat) (word : UInt64) : UInt32 :=
  if place % 2 = 0 then word.toUInt32 else (word >>> 32).toUInt32

theorem toNat_halfAt (place : Nat) (word : UInt64) :
    (halfAt place word).toNat =
      if place % 2 = 0 then word.toNat % 2 ^ 32 else word.toNat / 2 ^ 32 := by
  rw [halfAt]
  split_ifs with heven
  · exact UInt64.toNat_toUInt32 word
  · have hhigh : (word >>> 32).toNat = word.toNat / 2 ^ 32 := by
      rw [UInt64.toNat_shiftRight, Nat.shiftRight_eq_div_pow]
      rfl
    have hlt : word.toNat / 2 ^ 32 < 2 ^ 32 := by
      have hword := word.toNat_lt
      omega
    rw [UInt64.toNat_toUInt32, hhigh, Nat.mod_eq_of_lt hlt]

theorem output_zero (s : SplitMix) : s.output 0 = s.next64.1 := by
  rw [output, advanceBy]

theorem output_succ (n : Nat) (s : SplitMix) : s.output (n + 1) = s.next64.2.output n := by
  rw [output, output, advanceBy]

theorem getElem?_seedWords (count : Nat) (s : SplitMix) {place : Nat} (hplace : place < count) :
    (seedWords count s).1[place]? = some (halfAt place (s.output (place / 2))) := by
  induction count using Nat.twoStepInduction generalizing s place with
  | zero => exact absurd hplace (Nat.not_lt_zero place)
  | one =>
      obtain rfl : place = 0 := Nat.lt_one_iff.1 hplace
      rw [Nat.zero_div, output_zero]
      rfl
  | more count ih _ =>
      rw [seedWords_add_two]
      match place with
      | 0 =>
          rw [Nat.zero_div, output_zero]
          rfl
      | 1 =>
          rw [Nat.div_eq_of_lt Nat.one_lt_two, output_zero]
          rfl
      | place + 2 =>
          have hhalf : (place + 2) / 2 = place / 2 + 1 := by omega
          have hparity : halfAt (place + 2) = halfAt place := by
            funext word
            rw [halfAt, halfAt, Nat.add_mod_right]
          rw [hhalf, hparity, output_succ, ← ih s.next64.2 (by omega)]
          rfl

/-- After an even number of seed words nothing of an output is left over. -/
theorem seedWords_add (half more : Nat) (s : SplitMix) :
    seedWords (2 * half + more) s =
      ((seedWords (2 * half) s).1 ++ (seedWords more (seedWords (2 * half) s).2).1,
        (seedWords more (seedWords (2 * half) s).2).2) := by
  induction half generalizing s with
  | zero => rw [Nat.mul_zero, Nat.zero_add, seedWords, List.nil_append]
  | succ half ih =>
      have hcount : 2 * (half + 1) + more = 2 * half + more + 2 := by omega
      have htwo : 2 * (half + 1) = 2 * half + 2 := by omega
      rw [hcount, htwo, seedWords_add_two, seedWords_add_two, ih]
      rfl

theorem toList_generate (count : Nat) (s : SplitMix) :
    (SeedSource.generate count s).1.toList = (seedWords count s).1 := rfl

theorem get_generate (count : Nat) (s : SplitMix) (k : Fin count) :
    (SeedSource.generate count s).1.get k = halfAt k (s.output (k / 2)) := by
  have hget := getElem?_seedWords count s k.isLt
  rw [← toList_generate, Vector.getElem?_toList] at hget
  exact Vector.getElem_eq_iff.2 hget

theorem injective_generate {count : Nat} (htwo : 2 ≤ count) :
    Function.Injective fun seed : UInt64 => (SeedSource.generate count (mk seed)).1 := by
  intro first second hsame
  have hhalf : ∀ place < 2,
      halfAt place ((mk first).output 0) = halfAt place ((mk second).output 0) := by
    intro place hplace
    have hget := congrArg (Vector.get · ⟨place, Nat.lt_of_lt_of_le hplace htwo⟩) hsame
    simpa only [get_generate, Nat.div_eq_of_lt hplace] using hget
  have hlow := congrArg UInt32.toNat (hhalf 0 Nat.two_pos)
  have hhigh := congrArg UInt32.toNat (hhalf 1 Nat.one_lt_two)
  rw [toNat_halfAt, toNat_halfAt, if_pos (Nat.zero_mod 2), if_pos (Nat.zero_mod 2)] at hlow
  rw [toNat_halfAt, toNat_halfAt, if_neg Nat.one_ne_zero, if_neg Nat.one_ne_zero] at hhigh
  have hword : (mk first).output 0 = (mk second).output 0 := by
    apply UInt64.toNat_inj.1
    rw [← Nat.mod_add_div ((mk first).output 0).toNat (2 ^ 32),
      ← Nat.mod_add_div ((mk second).output 0).toNat (2 ^ 32), hlow, hhigh]
  rw [output_eq, output_eq] at hword
  have hmoved := (UInt64.add_left_inj gamma).1 (injective_finalize hword)
  exact (UInt64.add_left_inj _).1 hmoved

theorem generate_add {count : Nat} (heven : Even count) (more : Nat) (s : SplitMix) :
    SeedSource.generate (count + more) s =
      ((SeedSource.generate count s).1 ++
          (SeedSource.generate more (SeedSource.generate count s).2).1,
        (SeedSource.generate more (SeedSource.generate count s).2).2) := by
  obtain ⟨half, rfl⟩ := heven.two_dvd
  refine Prod.ext (Vector.toList_inj.1 ?_) ?_
  · rw [Vector.toList_append, toList_generate, seedWords_add]
    rfl
  · show (seedWords (2 * half + more) s).2 = _
    rw [seedWords_add]
    rfl

/-- **Every move is a jump.** After any run of moves the counter has moved on by as many outputs as
they took, modulo `2 ^ 64`. Seed word `k` is the low or the high half of output `k / 2`. -/
theorem every_move_jumps (hadapter : adapter.Lawful) (s : SplitMix) :
    (∀ moves : List Move, (run adapter moves s).state.toNat =
        (s.state.toNat + gamma.toNat * (moves.map Move.outputs).sum) % 2 ^ 64) ∧
      (∀ count : UInt64, Engine.discard count s = advanceBy Engine.next count.toNat s) ∧
      (∀ count, ∀ k : Fin count,
        let word := finalize (s.state + UInt64.ofNat (k / 2 + 1) * gamma)
        ((SeedSource.generate count s).1.get k).toNat =
          if k.val % 2 = 0 then word.toNat % 2 ^ 32 else word.toNat / 2 ^ 32) ∧
      ∀ count more, Even count →
        SeedSource.generate (count + more) s =
          ((SeedSource.generate count s).1 ++
              (SeedSource.generate more (SeedSource.generate count s).2).1,
            (SeedSource.generate more (SeedSource.generate count s).2).2) := by
  refine ⟨?_, fun count => discard_eq_advanceBy count s, ?_, ?_⟩
  · intro moves
    rw [run_eq_jump hadapter]
    exact toNat_state_jump _ s
  · intro count k word
    have hword : s.output (k / 2) = word := by
      have hmoved : gamma * UInt64.ofNat (k / 2) + gamma = UInt64.ofNat (k / 2 + 1) * gamma := by
        rw [UInt64.mul_comm, UInt64.ofNat_add, UInt64.add_mul, UInt64.ofNat_one, UInt64.one_mul]
      rw [output_eq, UInt64.add_assoc, hmoved]
    rw [get_generate, hword]
    exact toNat_halfAt k word
  · intro count more heven
    exact generate_add heven more s

/-- Four seed words and then three are seven in a row, across the end of the counter. -/
theorem every_move_jumps_at_wrap :
    let s : SplitMix := ⟨0xFFFFFFFFFFFFFFFF⟩
    Even 4 ∧ SeedSource.generate (4 + 3) s =
        ((SeedSource.generate 4 s).1 ++ (SeedSource.generate 3 (SeedSource.generate 4 s).2).1,
          (SeedSource.generate 3 (SeedSource.generate 4 s).2).2) ∧
      (run .lowFirst [.seedWords 7, .discard 0xFFFFFFFFFFFFFFFF, .next, .bytes 9] s).state.toNat =
        (s.state.toNat + gamma.toNat * 6) % 2 ^ 64 := by
  intro s
  have heven : Even 4 := by decide
  obtain ⟨hrun, -, -, hgenerate⟩ := every_move_jumps Adapter.lawful_lowFirst s
  refine ⟨heven, hgenerate 4 3 heven, ?_⟩
  rw [hrun]
  decide

end Keystream.SplitMix
