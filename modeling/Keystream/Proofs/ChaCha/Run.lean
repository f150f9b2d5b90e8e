import Keystream.Bytes
import Keystream.ChaCha.Text
import Keystream.Proofs.ChaCha.Current
import Keystream.Proofs.Text.Reading

/-!
# Runs of a ChaCha engine

An engine comes about from a seed, a seed source, a key with a position, a key given in bytes, or a
saved text, and then gives words, jumps and takes other keys in any order. At every point of such a
run the kept block is current, so an engine is its key's stream read from its position: the next
word is the word of the stream there, the position moves on by one and wraps at the end, and the key
stays.
-/

namespace Keystream.ChaCha

open Stateful Text Text.Reader

inductive Origin : Type 1
  | seeded (seed stream : UInt64)
  | byDefault
  | sourced {τ : Type} [SeedSource τ] (source : τ)
  | placed (key : Key) (position : UInt64)
  | bytes (key : Vector UInt8 32)
  | saved (text : String)

inductive Move : Type 1
  | next
  | discard (count : UInt64)
  | reseed (seed stream : UInt64)
  | reseedFrom {τ : Type} [SeedSource τ] (source : τ)

/-- What the caller sees of a call. A seed source is seen as it is afterwards. -/
inductive Answer : Type 1
  | nothing
  | word (word : BitVec 32)
  | number32 (number : UInt32)
  | number64 (number : UInt64)
  | bytes (bytes : List UInt8)
  | source {τ : Type} (source : τ)

variable {rounds : Nat}

def Origin.engine : Origin → Except Error (ChaCha rounds)
  | seeded seed stream => .ok (ofSeed seed stream)
  | byDefault => .ok initial
  | sourced source => .ok (ofSource source).1
  | placed key position => .ok (ofKey key position)
  | bytes key => .ok (ofBytes key)
  | saved text => decode text

def Move.perform : Move → ChaCha rounds → Answer × ChaCha rounds
  | next, s =>
      let (word, s) := Engine.next s
      (.word word, s)
  | discard count, s => (.nothing, Engine.discard count s)
  | reseed seed stream, s => (.nothing, s.reseed seed stream)
  | reseedFrom source, s =>
      let (s, source) := s.reseedFrom source
      (.source source, s)

def run (moves : List Move) (s : ChaCha rounds) : ChaCha rounds :=
  (collect Move.perform moves s).2

theorem eq_ofKey_of_decode {s : ChaCha rounds} {text : String} (hdecode : decode text = .ok s) :
    s = ofKey s.key s.position := by
  obtain ⟨after, hread, -⟩ := decode_eq_ok.1 hdecode
  obtain ⟨key, _, _, hread⟩ := bind_eq_ok.1 hread
  obtain ⟨position, _, _, hread⟩ := bind_eq_ok.1 hread
  obtain ⟨rfl, _⟩ := pure_eq_ok.1 hread
  rw [key_ofKey, position_ofKey]

theorem current_of_decode {s : ChaCha rounds} {text : String} (hdecode : decode text = .ok s) :
    s.Current := by
  rw [eq_ofKey_of_decode hdecode]
  exact current_ofKey s.key s.position

theorem Origin.current_engine {origin : Origin} {s : ChaCha rounds}
    (hengine : origin.engine = .ok s) : s.Current := by
  cases origin with
  | seeded seed stream =>
      cases hengine
      exact current_rekey _ _
  | byDefault =>
      cases hengine
      exact current_rekey _ _
  | sourced source =>
      cases hengine
      exact current_rekey _ _
  | placed key position =>
      cases hengine
      exact current_ofKey key position
  | bytes key =>
      cases hengine
      exact current_ofKey _ 0
  | saved text => exact current_of_decode hengine

theorem Move.current_perform {s : ChaCha rounds} (hs : s.Current) (move : Move) :
    (move.perform s).2.Current := by
  cases move with
  | next => exact hs.nextWord
  | discard count => exact hs.jump count
  | reseed seed stream => exact current_rekey _ s
  | reseedFrom source => exact current_rekey _ s

theorem current_run {s : ChaCha rounds} (hs : s.Current) (moves : List Move) :
    (run moves s).Current := by
  induction moves generalizing s with
  | nil => exact hs
  | cons move later ih => exact ih (move.current_perform hs)

theorem Current.next_eq {s : ChaCha rounds} (hs : s.Current) :
    Engine.next s = ((wordAt rounds s.key s.position).toBitVec,
      (⟨blockAt rounds s.key (s.position / 16), s.key, s.position + 1⟩ : ChaCha rounds)) := by
  change (s.nextWord.1.toBitVec, s.nextWord.2) = _
  rw [hs.nextWord_eq]

/-- **An engine is its key's stream read from its position.** At every point of every run the next
word is one of the block whose number is the position divided by 16: the permuted input block with
the input added back. -/
theorem next_of_run (origin : Origin) {s : ChaCha rounds} (hengine : origin.engine = .ok s)
    (moves : List Move) :
    let t := run moves s
    let number := t.position.toNat / 16
    let input := inputBlock t.key (t.position / 16)
    (t.position.toNat % 16 ≠ 0 → t.block = blockAt rounds t.key (t.position / 16)) ∧
      input.toList = [0x61707865, 0x3320646e, 0x79622d32, 0x6b206574] ++ t.key.toList ++
        [UInt32.ofNat (number % 2 ^ 32), UInt32.ofNat (number / 2 ^ 32), 0xdeadbeef, 0xdeadbeef] ∧
      (placeIn t.position).val = t.position.toNat % 16 ∧
      (Engine.next t).1.toNat =
        ((doubleRounds (rounds / 2) input)[placeIn t.position].toNat +
          input[placeIn t.position].toNat) % 2 ^ 32 ∧
      (Engine.next t).2.position.toNat = (t.position.toNat + 1) % 2 ^ 64 ∧
      (Engine.next t).2.key = t.key := by
  intro t number input
  have ht : t.Current := current_run (Origin.current_engine hengine) moves
  rw [ht.next_eq]
  refine ⟨?_, ?_, rfl, toNat_wordAt t.key t.position, toNat_succ t.position, rfl⟩
  · intro hinside
    apply ht
    intro hstart
    apply hinside
    simpa using congrArg UInt64.toNat hstart
  · have hnumber : (t.position / 16).toNat = number := by simp [number]
    rw [← hnumber]
    exact toList_inputBlock t.key (t.position / 16)

theorem next_of_run_at_wrap :
    (Origin.placed (Key.ofSeed 7 0) 0xFFFFFFFFFFFFFFFF).engine =
        .ok (ofKey (Key.ofSeed 7 0) 0xFFFFFFFFFFFFFFFF : ChaCha 20) ∧
      (Engine.next (run [.next, .reseed 1 2, .next, .discard 0xFFFFFFFFFFFFFFFE]
        (ofKey (Key.ofSeed 7 0) 0xFFFFFFFFFFFFFFFF : ChaCha 20))).2.position.toNat = 0 := by
  refine ⟨rfl, ?_⟩
  rw [(next_of_run (.placed (Key.ofSeed 7 0) 0xFFFFFFFFFFFFFFFF) rfl _).2.2.2.2.1]
  rfl

end Keystream.ChaCha
