import Keystream.Arc4
import Keystream.ChaCha
import Keystream.Seed.Mixer
import Keystream.SplitMix

/-!
# Bytes

Engines as sources of numbers and bytes, and seeds given as bytes. A number becomes bytes with the
lowest one first. How an engine gives numbers from its words is its own matter. How numbers of 32
bits make one of 64 and how numbers make bytes is left to an adapter that engines share: whoever
relies on it relies on its laws alone.
-/

namespace Keystream

/-- The lowest `count` bytes of a number, lowest first. -/
def littleEndian (count value : Nat) : List UInt8 :=
  (List.range count).map fun k => UInt8.ofNat (value >>> (8 * k))

/-- How states of type `σ` give numbers and bytes. -/
structure Feed (σ : Type) where
  next32 : σ → UInt32 × σ
  next64 : σ → UInt64 × σ
  bytes : (count : Nat) → σ → List UInt8 × σ

/-- Eight bytes are those of a number of 64 bits, and up to four at the end come from 32 bits. -/
structure Feed.Fills {σ : Type} (feed : Feed σ) : Prop where
  bytes_add_eight : ∀ count s, feed.bytes (count + 8) s =
    (littleEndian 8 (feed.next64 s).1.toNat ++ (feed.bytes count (feed.next64 s).2).1,
      (feed.bytes count (feed.next64 s).2).2)
  bytes_of_lt_eight : ∀ {count}, count < 8 → ∀ s, feed.bytes count s =
    if 4 < count then
      (littleEndian count (feed.next64 s).1.toNat, (feed.next64 s).2)
    else if 0 < count then
      (littleEndian count (feed.next32 s).1.toNat, (feed.next32 s).2)
    else
      ([], s)

/-- What makes numbers of 64 bits and bytes for engines that give smaller numbers. -/
structure Adapter where
  join : {σ : Type} → (next32 : σ → UInt32 × σ) → σ → UInt64 × σ
  fill : {σ : Type} → (next32 : σ → UInt32 × σ) → (next64 : σ → UInt64 × σ) → (count : Nat) → σ →
    List UInt8 × σ

namespace Adapter

variable {σ : Type}

def feed (adapter : Adapter) (next32 : σ → UInt32 × σ) (next64 : σ → UInt64 × σ) : Feed σ :=
  ⟨next32, next64, adapter.fill next32 next64⟩

/-- Of two joined numbers the first is the low half, and bytes are filled as `Fills` says. -/
structure Lawful (adapter : Adapter) : Prop where
  join_fst : ∀ {σ : Type} (next32 : σ → UInt32 × σ) (s : σ), (adapter.join next32 s).1.toNat =
    UInt32.size * (next32 (next32 s).2).1.toNat + (next32 s).1.toNat
  join_snd : ∀ {σ : Type} (next32 : σ → UInt32 × σ) (s : σ),
    (adapter.join next32 s).2 = (next32 (next32 s).2).2
  fills : ∀ {σ : Type} (next32 : σ → UInt32 × σ) (next64 : σ → UInt64 × σ),
    (adapter.feed next32 next64).Fills

def joinLowFirst (next32 : σ → UInt32 × σ) (s : σ) : UInt64 × σ :=
  let (low, s) := next32 s
  let (high, s) := next32 s
  (UInt64.ofBitVec (high.toBitVec ++ low.toBitVec), s)

def fillLowFirst (next32 : σ → UInt32 × σ) (next64 : σ → UInt64 × σ) :
    (count : Nat) → σ → List UInt8 × σ
  | count + 8, s =>
      let (number, s) := next64 s
      let (later, s) := fillLowFirst next32 next64 count s
      (littleEndian 8 number.toNat ++ later, s)
  | count, s =>
      if 4 < count then
        let (number, s) := next64 s
        (littleEndian count number.toNat, s)
      else if 0 < count then
        let (number, s) := next32 s
        (littleEndian count number.toNat, s)
      else
        ([], s)

def lowFirst : Adapter :=
  ⟨joinLowFirst, fillLowFirst⟩

end Adapter

namespace Feed

variable {σ : Type}

def ofWords32 [Engine σ 32] (adapter : Adapter := .lowFirst) : Feed σ :=
  let next32 := fun s : σ =>
    let (word, s) := Engine.next s
    (UInt32.ofBitVec word, s)
  adapter.feed next32 (adapter.join next32)

/-- A word is a number of 64 bits, and its low half one of 32. -/
def ofWords64 [Engine σ 64] (adapter : Adapter := .lowFirst) : Feed σ :=
  adapter.feed
    (fun s =>
      let (word, s) := Engine.next s
      (UInt32.ofBitVec (word.truncate 32), s))
    fun s =>
      let (word, s) := Engine.next s
      (UInt64.ofBitVec word, s)

end Feed

/-- A number of 32 bits is the high half of an output. -/
def SplitMix.feed (adapter : Adapter := .lowFirst) : Feed SplitMix :=
  adapter.feed
    (fun s =>
      let (word, s) := s.next64
      ((word >>> 32).toUInt32, s))
    SplitMix.next64

/-- The number that bytes stand for, lowest byte first. -/
def numberOfBytes (bytes : List UInt8) : Nat :=
  bytes.foldr (fun byte number => byte.toNat + 256 * number) 0

/-- Eight words from bytes, four to a word, lowest byte first. -/
def wordsOfBytes (bytes : Vector UInt8 32) : Vector UInt32 8 :=
  Vector.ofFn fun k : Fin 8 =>
    UInt32.ofNat (numberOfBytes ((bytes.toList.drop (4 * k)).take 4))

def ChaCha.ofBytes {rounds : Nat} (bytes : Vector UInt8 32) : ChaCha rounds :=
  ChaCha.ofKey (wordsOfBytes bytes) 0

def Arc4.ofBytes {shape : Arc4.Shape} (bytes : Vector UInt8 32) : Arc4 shape :=
  (Arc4.ofSource (SeedMixer.mk (wordsOfBytes bytes).toList)).1

def SplitMix.ofBytes (bytes : Vector UInt8 8) : SplitMix :=
  ⟨UInt64.ofNat (numberOfBytes bytes.toList)⟩

end Keystream
