import Keystream.Proofs.Bytes
import Keystream.Proofs.ChaCha.Run

/-!
# Equal engines are alike

Equality of engines looks at key and position and leaves the kept block out. Two engines that came
about and were used in any way may thus be equal and keep different blocks, but no call tells them
apart: as each kept block is current, the answer to a call depends on key and position alone, and so
do the key and the position afterwards. A jump is then as good as the words it leaves out, and one
jump as good as two that are as long together, also past the end of the positions.
-/

namespace Keystream.ChaCha

open Stateful

/-- A move, or a request for numbers or bytes. -/
inductive Call : Type 1
  | move (asked : Move)
  | next32
  | next64
  | bytes (count : Nat)

variable {rounds : Nat} {adapter : Adapter} {s t : ChaCha rounds}

def Call.perform (adapter : Adapter) : Call → ChaCha rounds → Answer × ChaCha rounds
  | move asked, s => asked.perform s
  | next32, s =>
      let (number, s) := (Feed.ofWords32 adapter).next32 s
      (.number32 number, s)
  | next64, s =>
      let (number, s) := (Feed.ofWords32 adapter).next64 s
      (.number64 number, s)
  | bytes count, s =>
      let (given, s) := (Feed.ofWords32 adapter).bytes count s
      (.bytes given, s)

def answers (adapter : Adapter) : List Call → ChaCha rounds → List Answer × ChaCha rounds :=
  collect (Call.perform adapter)

/-- No calls tell the engines apart, and after any calls they are equal. -/
def Alike (adapter : Adapter) (s t : ChaCha rounds) : Prop :=
  ∀ calls : List Call, (answers adapter calls s).1 = (answers adapter calls t).1 ∧
    ((answers adapter calls s).2 == (answers adapter calls t).2) = true

/-! ### The same place in the same stream -/

theorem beq_iff : (s == t) = true ↔ s.key = t.key ∧ s.position = t.position := by
  change (s.key == t.key && s.position == t.position) = true ↔ _
  rw [Bool.and_eq_true, beq_iff_eq, beq_iff_eq]

/-- Both engines keep a current block, at the same place of the same stream. -/
structure Same (s t : ChaCha rounds) : Prop where
  left : s.Current
  right : t.Current
  key : s.key = t.key
  position : s.position = t.position

theorem Current.same (hs : s.Current) : Same s s :=
  ⟨hs, hs, rfl, rfl⟩

theorem Same.beq (hst : Same s t) : (s == t) = true :=
  beq_iff.2 ⟨hst.key, hst.position⟩

theorem same_rekey (key : Key) (s t : ChaCha rounds) : Same (s.rekey key) (t.rekey key) :=
  ⟨current_rekey key s, current_rekey key t, rfl, rfl⟩

theorem Same.next_eq (hst : Same s t) : Engine.next s = Engine.next t := by
  rw [hst.left.next_eq, hst.right.next_eq, hst.key, hst.position]

theorem Same.next (hst : Same s t) : Agree Same (Engine.next s) (Engine.next t) := by
  rw [hst.next_eq]
  exact ⟨rfl, Current.same hst.right.nextWord⟩

theorem Same.jump (hst : Same s t) (count : UInt64) : Same (s.jump count) (t.jump count) where
  left := hst.left.jump count
  right := hst.right.jump count
  key := by rw [key_jump, key_jump, hst.key]
  position := by rw [position_jump, position_jump, hst.position]

theorem respects_same (hadapter : adapter.Lawful) :
    (Feed.ofWords32 adapter : Feed (ChaCha rounds)).Respects Same :=
  Feed.respects_ofWords32 hadapter Same.next

theorem Same.perform_move (hst : Same s t) (asked : Move) :
    Agree Same (asked.perform s) (asked.perform t) := by
  cases asked with
  | next =>
      obtain ⟨hword, hafter⟩ := hst.next
      exact ⟨congrArg Answer.word hword, hafter⟩
  | discard count => exact ⟨rfl, hst.jump count⟩
  | reseed seed stream => exact ⟨rfl, same_rekey _ s t⟩
  | reseedFrom source => exact ⟨rfl, same_rekey _ s t⟩

theorem Same.perform (hadapter : adapter.Lawful) (call : Call) (hst : Same s t) :
    Agree Same (call.perform adapter s) (call.perform adapter t) := by
  cases call with
  | move asked => exact hst.perform_move asked
  | next32 =>
      obtain ⟨hnumber, hafter⟩ := (respects_same hadapter).next32 hst
      exact ⟨congrArg Answer.number32 hnumber, hafter⟩
  | next64 =>
      obtain ⟨hnumber, hafter⟩ := (respects_same hadapter).next64 hst
      exact ⟨congrArg Answer.number64 hnumber, hafter⟩
  | bytes count =>
      obtain ⟨hbytes, hafter⟩ :=
        (respects_same hadapter).bytes (Feed.fills_ofWords32 hadapter) hst count
      exact ⟨congrArg Answer.bytes hbytes, hafter⟩

theorem Same.answers (hadapter : adapter.Lawful) (hst : Same s t) (calls : List Call) :
    Agree Same (answers adapter calls s) (answers adapter calls t) :=
  agree_collect (fun call _ _ => Same.perform hadapter call) calls hst

theorem Same.alike (hadapter : adapter.Lawful) (hst : Same s t) : Alike adapter s t := by
  intro calls
  obtain ⟨hanswers, hafter⟩ := hst.answers hadapter calls
  exact ⟨hanswers, hafter.beq⟩

theorem Origin.current_answers (hadapter : adapter.Lawful) {origin : Origin} {first : ChaCha rounds}
    (hfirst : origin.engine = .ok first) (calls : List Call) :
    (ChaCha.answers adapter calls first).2.Current :=
  ((current_engine hfirst).same.answers hadapter calls).2.left

/-! ### Jumps -/

theorem Current.advanceBy (hs : s.Current) (count : Nat) :
    (advanceBy Engine.next count s).Current ∧
      (advanceBy Engine.next count s).key = s.key ∧
      (advanceBy Engine.next count s).position = s.position + UInt64.ofNat count := by
  induction count generalizing s with
  | zero => exact ⟨hs, rfl, (UInt64.add_zero s.position).symm⟩
  | succ count ih =>
      obtain ⟨hcurrent, hkey, hposition⟩ := ih hs.nextWord
      have hnext : s.nextWord.2.key = s.key ∧ s.nextWord.2.position = s.position + 1 := by
        rw [hs.nextWord_eq]
        exact ⟨rfl, rfl⟩
      refine ⟨hcurrent, hkey.trans hnext.1, hposition.trans ?_⟩
      rw [hnext.2, UInt64.ofNat_add, UInt64.add_assoc, UInt64.add_comm (UInt64.ofNat count)]
      rfl

theorem Current.same_jump (hs : s.Current) (count : UInt64) :
    Same (s.jump count) (Keystream.advanceBy Engine.next count.toNat s) := by
  obtain ⟨hcurrent, hkey, hposition⟩ := hs.advanceBy count.toNat
  refine ⟨hs.jump count, hcurrent, ?_, ?_⟩
  · rw [key_jump, hkey]
  · rw [position_jump, hposition, UInt64.ofNat_toNat]

theorem Current.same_jump_jump (hs : s.Current) (count more : UInt64) :
    Same ((s.jump count).jump more) (s.jump (count + more)) := by
  refine ⟨(hs.jump count).jump more, hs.jump (count + more), ?_, ?_⟩
  · rw [key_jump, key_jump, key_jump]
  · rw [position_jump, position_jump, position_jump, UInt64.add_assoc]

/-- **Equal engines are alike, whatever blocks they keep.** No calls tell them apart, however they
came about and were used, and two jumps are like one whose length is their sum. -/
theorem alike_of_beq (hadapter : adapter.Lawful) {origin other : Origin}
    {first second : ChaCha rounds} (hfirst : origin.engine = .ok first)
    (hsecond : other.engine = .ok second) (earlier past : List Call) :
    let s := (answers adapter earlier first).2
    let t := (answers adapter past second).2
    ((s == t) = true → Alike adapter s t) ∧
      (∀ count : UInt64, Alike adapter (Engine.discard count s)
        (Keystream.advanceBy Engine.next count.toNat s)) ∧
      ∀ count more : UInt64, Alike adapter (Engine.discard more (Engine.discard count s))
        (Engine.discard (count + more) s) := by
  intro s t
  have hs : s.Current := Origin.current_answers hadapter hfirst earlier
  have ht : t.Current := Origin.current_answers hadapter hsecond past
  refine ⟨?_, ?_, ?_⟩
  · intro hbeq
    obtain ⟨hkey, hposition⟩ := beq_iff.1 hbeq
    exact Same.alike hadapter ⟨hs, ht, hkey, hposition⟩
  · intro count
    exact (hs.same_jump count).alike hadapter
  · intro count more
    exact (hs.same_jump_jump count more).alike hadapter

/-- A reseeded engine beside a new one, and a jump past the last position. -/
theorem alike_of_beq_reseeded :
    let s := (answers .lowFirst [.move .next, .move (.reseed 5 6)] (ofSeed 7 0 : ChaCha 8)).2
    let t : ChaCha 8 := ofSeed 5 6
    (s == t) = true ∧ s.block.get 0 ≠ t.block.get 0 ∧ Alike .lowFirst s t ∧
      Alike .lowFirst (Engine.discard 2 (Engine.discard 0xFFFFFFFFFFFFFFFF s))
        (Engine.discard 1 s) := by
  intro s t
  have hbeq : (s == t) = true := by decide +kernel
  have hblock : s.block.get 0 ≠ t.block.get 0 := by decide +kernel
  have halike := @alike_of_beq 8 .lowFirst Adapter.lawful_lowFirst (.seeded 7 0) (.seeded 5 6) _ _
    rfl rfl [.move .next, .move (.reseed 5 6)] []
  exact ⟨hbeq, hblock, halike.1 hbeq, halike.2.2 0xFFFFFFFFFFFFFFFF 2⟩

end Keystream.ChaCha
