import Keystream.Proofs.Bytes
import Keystream.Proofs.ChaCha.Alike
import Keystream.Proofs.Counting
import Keystream.Proofs.Draw.First

/-!
# Byte streams

The bytes that an engine gives are the bytes of its words, one word after another and the lowest
byte of each word first. It makes no difference that they are fetched in numbers of 64 bits, which
are two words of some engines and one word of others, and that the last number may be one of 32
bits: a request takes as many words as its bytes need, and only the end of the last word may be
lost. So bytes may be fetched in pieces, as long as each piece but the last is made of whole words.
-/

namespace Keystream

/-! ### Bytes of numbers -/

@[simp] theorem length_littleEndian (count value : Nat) :
    (littleEndian count value).length = count := by
  rw [littleEndian, List.length_map, List.length_range]

theorem littleEndian_add (count more value : Nat) :
    littleEndian (count + more) value =
      littleEndian count value ++ littleEndian more (value >>> (8 * count)) := by
  rw [littleEndian, List.range_add, List.map_append, List.map_map]
  refine congrArg (_ ++ ·) (List.map_congr_left fun k _ => ?_)
  rw [Function.comp_apply, Nat.mul_add, Nat.shiftRight_add]

theorem take_littleEndian {few many : Nat} (hle : few ≤ many) (value : Nat) :
    (littleEndian many value).take few = littleEndian few value := by
  obtain ⟨more, rfl⟩ := Nat.exists_eq_add_of_le hle
  rw [littleEndian_add, List.take_left' (length_littleEndian few value)]

theorem littleEndian_mod (count value : Nat) :
    littleEndian count (value % 2 ^ (8 * count)) = littleEndian count value := by
  refine List.map_congr_left fun k hk => ?_
  have hbyte : 8 * k + 8 ≤ 8 * count := by
    have hlt := List.mem_range.1 hk
    omega
  apply UInt8.toNat_inj.1
  rw [UInt8.toNat_ofNat', UInt8.toNat_ofNat']
  apply Nat.eq_of_testBit_eq
  intro bit
  rw [Nat.testBit_mod_two_pow, Nat.testBit_mod_two_pow, Nat.testBit_shiftRight,
    Nat.testBit_shiftRight, Nat.testBit_mod_two_pow]
  rcases Nat.lt_or_ge bit 8 with hlow | hhigh
  · rw [decide_eq_true (show 8 * k + bit < 8 * count by omega), Bool.true_and]
  · rw [decide_eq_false (Nat.not_lt.2 hhigh), Bool.false_and, Bool.false_and]

theorem littleEndian_joined {count low : Nat} (hlow : low < 2 ^ (8 * count)) (more high : Nat) :
    littleEndian (count + more) (2 ^ (8 * count) * high + low) =
      littleEndian count low ++ littleEndian more high := by
  have hhigh : (2 ^ (8 * count) * high + low) >>> (8 * count) = high := by
    rw [Nat.shiftRight_eq_div_pow, Nat.mul_add_div (Nat.two_pow_pos _), Nat.div_eq_of_lt hlow,
      Nat.add_zero]
  rw [littleEndian_add, hhigh, ← littleEndian_mod count, Nat.mul_add_mod, Nat.mod_eq_of_lt hlow]

/-! ### Bytes of words -/

namespace Engine

variable {σ : Type} {w : Nat} [Engine σ w]

/-- The bytes of the next `count` words, lowest byte of each word first. -/
def wordBytes (count : Nat) (s : σ) : List UInt8 :=
  (List.range count).flatMap fun k => littleEndian (w / 8) (wordAt k s).toNat

theorem after_add (count more : Nat) (s : σ) :
    after (count + more) s = after more (after count s) := by
  induction count generalizing s with
  | zero => rw [Nat.zero_add, after_zero]
  | succ count ih => rw [Nat.succ_add, after_succ, after_succ, ih]

theorem wordAt_add (count k : Nat) (s : σ) : wordAt (count + k) s = wordAt k (after count s) := by
  rw [wordAt, wordAt, after_add]

@[simp] theorem length_wordBytes (count : Nat) (s : σ) :
    (wordBytes count s).length = count * (w / 8) := by
  simp [wordBytes, List.length_flatMap]

theorem wordBytes_add (count more : Nat) (s : σ) :
    wordBytes (count + more) s = wordBytes count s ++ wordBytes more (after count s) := by
  rw [wordBytes, List.range_add, List.flatMap_append, List.flatMap_map, wordBytes, wordBytes]
  simp only [wordAt_add]

theorem wordBytes_one (s : σ) : wordBytes 1 s = littleEndian (w / 8) (next s).1.toNat :=
  List.append_nil _

end Engine

namespace Feed

open Engine

variable {σ : Type} {w : Nat} [Engine σ w] {adapter : Adapter} {feed : Feed σ} {words : Nat}

/-- Numbers of 64 bits have the bytes of so many words, those of 32 bits the first of one word. -/
structure Takes (feed : Feed σ) (words : Nat) : Prop where
  next64_fst : ∀ s, littleEndian 8 (feed.next64 s).1.toNat = wordBytes words s
  next64_snd : ∀ s, (feed.next64 s).2 = after words s
  next32_fst : ∀ s, littleEndian 4 (feed.next32 s).1.toNat = (wordBytes 1 s).take 4
  next32_snd : ∀ s, (feed.next32 s).2 = after 1 s

theorem takes_ofWords32 [Engine σ 32] (hadapter : adapter.Lawful) :
    (ofWords32 adapter : Feed σ).Takes 2 where
  next64_fst s := by
    have hvalue : ((ofWords32 adapter).next64 s).1.toNat =
        2 ^ (8 * 4) * (next (after 1 s)).1.toNat + (next s).1.toNat :=
      hadapter.join_fst _ s
    rw [hvalue, littleEndian_joined (next s).1.isLt 4, wordBytes_add 1 1, wordBytes_one,
      wordBytes_one]
  next64_snd s := hadapter.join_snd _ s
  next32_fst s := by
    rw [wordBytes_one]
    exact (List.take_of_length_le (Nat.le_of_eq (length_littleEndian 4 _))).symm
  next32_snd _ := rfl

theorem takes_ofWords64 [Engine σ 64] : (ofWords64 adapter : Feed σ).Takes 1 where
  next64_fst s := (wordBytes_one s).symm
  next64_snd _ := rfl
  next32_fst s := by
    have hvalue : ((ofWords64 adapter).next32 s).1.toNat = (next s).1.toNat % 2 ^ (8 * 4) :=
      BitVec.toNat_setWidth 32 (next s).1
    rw [wordBytes_one, take_littleEndian (by decide), hvalue, littleEndian_mod]
  next32_snd _ := rfl

/-- The bytes of a feed are the bytes of its engine's words. -/
structure FollowsWords (feed : Feed σ) : Prop where
  bytes_eq : ∀ count s, feed.bytes count s =
    ((wordBytes (count ⌈/⌉ (w / 8)) s).take count, after (count ⌈/⌉ (w / 8)) s)
  length_bytes : ∀ count s, (feed.bytes count s).1.length = count
  bytes_add : ∀ count more s, w / 8 ∣ count → feed.bytes (count + more) s =
    ((feed.bytes count s).1 ++ (feed.bytes more (feed.bytes count s).2).1,
      (feed.bytes more (feed.bytes count s).2).2)
  take_bytes : ∀ few many s, few ≤ many → (feed.bytes many s).1.take few = (feed.bytes few s).1

namespace Takes

theorem bytes_eq (hfeed : feed.Takes words) (hfills : feed.Fills) (hnumber : w / 8 * words = 8)
    (hword : 4 ≤ w / 8) (count : Nat) (s : σ) :
    feed.bytes count s =
      ((wordBytes (count ⌈/⌉ (w / 8)) s).take count, after (count ⌈/⌉ (w / 8)) s) := by
  -- eight bytes come off the front at a time, and a last number is left to be cut short
  induction count using Nat.strongRecOn generalizing s with
  | ind count ih =>
      rcases Nat.lt_or_ge count 8 with hfew | hmany
      · rw [hfills.bytes_of_lt_eight hfew]
        split_ifs with hfour hsome
        · have hcount : count ⌈/⌉ (w / 8) = words := ceilDiv_eq_of_le (by omega) (by omega)
          rw [hcount, hfeed.next64_snd, ← hfeed.next64_fst, take_littleEndian (by omega)]
        · have hcount : count ⌈/⌉ (w / 8) = 1 := ceilDiv_eq_of_le (by omega) (by omega)
          have hle : count ≤ 4 := Nat.not_lt.1 hfour
          rw [hcount, hfeed.next32_snd, ← take_littleEndian hle, hfeed.next32_fst, List.take_take,
            Nat.min_eq_left hle]
        · obtain rfl : count = 0 := by omega
          rw [zero_ceilDiv]
          rfl
      · obtain ⟨more, rfl⟩ := Nat.exists_eq_add_of_le hmany
        have hcount : (8 + more) ⌈/⌉ (w / 8) = words + more ⌈/⌉ (w / 8) := by
          rw [← mul_add_ceilDiv (by omega), hnumber]
        have hlength : (wordBytes words s).length = 8 := by
          rw [length_wordBytes, Nat.mul_comm, hnumber]
        rw [Nat.add_comm 8, hfills.bytes_add_eight, Nat.add_comm more, ih more (by omega), hcount,
          hfeed.next64_snd, hfeed.next64_fst, wordBytes_add, after_add, ← hlength,
          List.take_length_add_append]

theorem followsWords (hfeed : feed.Takes words) (hfills : feed.Fills)
    (hnumber : w / 8 * words = 8) (hword : 4 ≤ w / 8) : feed.FollowsWords := by
  have hpos : 0 < w / 8 := Nat.lt_of_lt_of_le (by decide) hword
  have hcover : ∀ count, count ≤ w / 8 * (count ⌈/⌉ (w / 8)) := fun count =>
    (ceilDiv_le_iff_le_mul hpos).1 (Nat.le_refl _)
  have hbytes := hfeed.bytes_eq hfills hnumber hword
  refine ⟨hbytes, ?_, ?_, ?_⟩
  · intro count s
    rw [hbytes, List.length_take, length_wordBytes, Nat.mul_comm, Nat.min_eq_left (hcover count)]
  · rintro count more s ⟨quotient, rfl⟩
    have hlength : (wordBytes quotient s).length = w / 8 * quotient := by
      rw [length_wordBytes, Nat.mul_comm]
    have hwhole : (w / 8 * quotient) ⌈/⌉ (w / 8) = quotient :=
      ceilDiv_eq_of_le (Nat.lt_add_of_pos_right hpos) (Nat.le_refl _)
    rw [hbytes, hbytes, hbytes, mul_add_ceilDiv hpos, hwhole, wordBytes_add, after_add, ← hlength,
      List.take_length_add_append, List.take_length]
  · intro few many s hle
    have hwords : few ⌈/⌉ (w / 8) ≤ many ⌈/⌉ (w / 8) :=
      (ceilDiv_le_iff_le_mul hpos).2 (Nat.le_trans hle (hcover many))
    obtain ⟨more, hmore⟩ := Nat.exists_eq_add_of_le hwords
    have hlength : few ≤ (wordBytes (few ⌈/⌉ (w / 8)) s).length := by
      rw [length_wordBytes, Nat.mul_comm]
      exact hcover few
    rw [hbytes, hbytes, List.take_take, Nat.min_eq_left hle, hmore, wordBytes_add,
      List.take_append_of_le_length hlength]

end Takes

end Feed

/-- **Byte streams are the words in bytes.** A request is answered with the first bytes of the
words, lowest byte first, and takes as many words as these need. So it may be split after whole
words, and a shorter answer is the start of a longer one. -/
theorem bytes_of_words {adapter : Adapter} (hadapter : adapter.Lawful) :
    (∀ rounds, (Feed.ofWords32 adapter : Feed (ChaCha rounds)).FollowsWords) ∧
      (∀ entry bits hpos hentry hle,
        (Feed.ofWords32 adapter : Feed (Arc4 ⟨32, entry, bits, hpos, hentry, hle⟩)).FollowsWords) ∧
      (∀ entry bits hpos hentry hle,
        (Feed.ofWords64 adapter : Feed (Arc4 ⟨64, entry, bits, hpos, hentry, hle⟩)).FollowsWords) ∧
      ∀ {rounds : Nat} {origin other : ChaCha.Origin} {first second : ChaCha rounds},
        origin.engine = .ok first → other.engine = .ok second →
        ∀ earlier past few many,
          let feed : Feed (ChaCha rounds) := .ofWords32 adapter
          let s := (ChaCha.answers adapter earlier first).2
          let t := (ChaCha.answers adapter past second).2
          (s == t) = true → few ≤ many →
            (feed.bytes many t).1.take few = (feed.bytes few s).1 := by
  refine ⟨?_, ?_, ?_, ?_⟩
  · intro rounds
    exact (Feed.takes_ofWords32 hadapter).followsWords (Feed.fills_ofWords32 hadapter) (by decide)
      (by decide)
  · intro entry bits hpos hentry hle
    exact (Feed.takes_ofWords32 hadapter).followsWords (Feed.fills_ofWords32 hadapter) (by decide)
      (by decide)
  · intro entry bits hpos hentry hle
    exact Feed.takes_ofWords64.followsWords (Feed.fills_ofWords64 hadapter) (by decide) (by decide)
  · intro rounds origin other first second hfirst hsecond earlier past few many feed s t hbeq hle
    have hs : s.Current := ChaCha.Origin.current_answers hadapter hfirst earlier
    have ht : t.Current := ChaCha.Origin.current_answers hadapter hsecond past
    obtain ⟨hkey, hposition⟩ := ChaCha.beq_iff.1 hbeq
    have hst : ChaCha.Same s t := ⟨hs, ht, hkey, hposition⟩
    have hfills : feed.Fills := Feed.fills_ofWords32 hadapter
    have hfollows : feed.FollowsWords :=
      (Feed.takes_ofWords32 hadapter).followsWords hfills (by decide) (by decide)
    rw [hfollows.take_bytes few many t hle]
    exact ((ChaCha.respects_same hadapter).bytes hfills hst few).1.symm

/-- An engine that was reseeded, and a new one that is asked for eight bytes before five more. -/
theorem bytes_of_words_reseeded :
    let feed : Feed (ChaCha 8) := .ofWords32 .lowFirst
    let s := (ChaCha.answers .lowFirst [.bytes 3, .move (.reseed 5 6)] (ChaCha.ofSeed 7 0)).2
    let t : ChaCha 8 := ChaCha.ofSeed 5 6
    (s == t) = true ∧ 5 ≤ 13 ∧ (feed.bytes 13 t).1.take 5 = (feed.bytes 5 s).1 ∧
      32 / 8 ∣ 8 ∧ feed.bytes (8 + 5) t =
        ((feed.bytes 8 t).1 ++ (feed.bytes 5 (feed.bytes 8 t).2).1,
          (feed.bytes 5 (feed.bytes 8 t).2).2) := by
  intro feed s t
  have hbeq : (s == t) = true := by decide +kernel
  have hle : 5 ≤ 13 := by decide
  have hdvd : 32 / 8 ∣ 8 := by decide
  obtain ⟨hchacha, -, -, hequal⟩ := bytes_of_words Adapter.lawful_lowFirst
  have htake := @hequal 8 (.seeded 7 0) (.seeded 5 6) _ _ rfl rfl
    [.bytes 3, .move (.reseed 5 6)] [] 5 13 hbeq hle
  exact ⟨hbeq, hle, htake, hdvd, (hchacha 8).bytes_add 8 5 t hdvd⟩

end Keystream
