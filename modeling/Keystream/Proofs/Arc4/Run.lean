import Keystream.Proofs.Arc4.Checked
import Keystream.Proofs.Arc4.Decode
import Keystream.Seed.Mixer

/-!
# Runs of a permuted-table engine

An engine comes about in one of five ways, from a number, a seed source or a saved text, and then
does whatever is asked of it in any order. This module proves what holds at every point of such a
run: the table is a permutation of the numbers below its size, the cursors lie inside it, and the
size is the one the engine started with. No place outside the table is touched on the way there,
neither in the making of the engine nor by anything it does.
-/

namespace Keystream.Arc4

inductive Origin (shape : Shape) : Type 1
  | seeded (seed : UInt64)
  | keyed {τ : Type} [SeedSource τ] (source : τ)
  | sized {τ : Type} [SeedSource τ] (size : Nat) (source : τ)
  | saved (text : String)
  | savedSized (size : Nat) (text : String)

inductive Move (shape : Shape) : Type 1
  | next
  | discard (count : UInt64)
  | rekey (key : Array (BitVec shape.entry))
  | reseed (seed : UInt64)
  | reseedFrom {τ : Type} [SeedSource τ] (source : τ)

variable {shape : Shape}

namespace Origin

def engine : Origin shape → Except Error (Arc4 shape)
  | seeded seed => .ok (ofSeed seed)
  | keyed source => .ok (ofSource source).1
  | sized size source => Prod.fst <$> withSize size source
  | saved text => decode text
  | savedSized size text => decodeWithSize size text

def size : Origin shape → Nat
  | seeded _ | keyed _ | saved _ => shape.fullSize
  | sized size _ | savedSized size _ => size

def text? : Origin shape → Option String
  | saved text | savedSized _ text => some text
  | _ => none

end Origin

/-- A refused request leaves the engine as it is. -/
def Move.apply : Move shape → Arc4 shape → Arc4 shape
  | next, s => (Engine.next s).2
  | discard count, s => Engine.discard count s
  | rekey key, s =>
      match s.rekey key with
      | .ok s => s
      | .error _ => s
  | reseed seed, s => s.reseed seed
  | reseedFrom source, s => (s.reseedFrom source).1

def run : List (Move shape) → Arc4 shape → Arc4 shape
  | [], s => s
  | move :: later, s => run later (move.apply s)

/-! ### The same with every place checked -/

def Shape.keyed? {τ : Type} [SeedSource τ] (shape : Shape) (size : Nat) (source : τ) :
    Option (State shape.entry) :=
  (State.identity shape.entry size).schedule? (shape.keyMaterial size source).1

def Origin.checked? : Origin shape → Option (Arc4 shape)
  | seeded seed => Arc4.mk <$> shape.keyed? shape.fullSize (SplitMix.mk seed)
  | keyed source => Arc4.mk <$> shape.keyed? shape.fullSize source
  | sized size source => Arc4.mk <$> shape.keyed? size source
  | saved text => (decode text).toOption
  | savedSized size text => (decodeWithSize size text).toOption

def Move.checked? : Move shape → Arc4 shape → Option (Arc4 shape)
  | next, s => do
      let (_, state) ← s.toState.gather? shape.bits shape.bits_pos 0 (0 : BitVec shape.word)
      return ⟨state⟩
  | discard count, s => Arc4.mk <$> s.toState.advance? (stepsFor shape count)
  | rekey key, s => if key.isEmpty then some s else Arc4.mk <$> s.toState.schedule? key
  | reseed seed, s => Arc4.mk <$> shape.keyed? s.size (SplitMix.mk seed)
  | reseedFrom source, s => Arc4.mk <$> shape.keyed? s.size source

def run? : List (Move shape) → Arc4 shape → Option (Arc4 shape)
  | [], s => some s
  | move :: later, s => do
      let s ← move.checked? s
      run? later s

theorem Shape.Supports.size_keyMaterial_pos {τ : Type} [SeedSource τ] {size : Nat}
    (hsize : shape.Supports size) (source : τ) : 0 < (shape.keyMaterial size source).1.size := by
  change 0 < (Array.ofFn (shape.keyEntry size (SeedSource.generate _ source).1)).size
  rw [Array.size_ofFn, Shape.keyLength]
  exact Nat.div_pos hsize.1 Nat.two_pos

theorem Shape.Supports.keyed?_eq {τ : Type} [SeedSource τ] {size : Nat}
    (hsize : shape.Supports size) (source : τ) :
    shape.keyed? size source = some (shape.keyed size source).1 := by
  rw [Shape.keyed?, Shape.keyed_fst]
  exact (State.valid_identity hsize.pos hsize.le_two_pow_entry).schedule?_eq
    (hsize.size_keyMaterial_pos source)

/-! ### The engine at the start -/

theorem supports_of_checkSize {size : Nat} (hcheck : checkSize shape size = .ok ()) :
    shape.Supports size := by
  unfold checkSize at hcheck
  split at hcheck
  · assumption
  · cases hcheck

namespace Origin

variable {origin : Origin shape} {s : Arc4 shape}

theorem supports_size (hengine : origin.engine = .ok s) : shape.Supports origin.size := by
  cases origin with
  | seeded seed => exact shape.supports_fullSize
  | keyed source => exact shape.supports_fullSize
  | saved text => exact shape.supports_fullSize
  | sized size source =>
      rcases hcheck : checkSize shape size with cause | _
      · rw [engine, withSize, hcheck] at hengine
        cases hengine
      · exact supports_of_checkSize hcheck
  | savedSized size text =>
      rcases hcheck : checkSize shape size with cause | _
      · rw [engine, decodeWithSize, hcheck] at hengine
        cases hengine
      · exact supports_of_checkSize hcheck

theorem seeded_engine (seed : UInt64) : (seeded seed : Origin shape).engine =
    .ok ⟨(shape.keyed shape.fullSize (SplitMix.mk seed)).1⟩ := rfl

theorem keyed_engine {τ : Type} [SeedSource τ] (source : τ) :
    (keyed source : Origin shape).engine = .ok ⟨(shape.keyed shape.fullSize source).1⟩ := rfl

theorem sized_engine {τ : Type} [SeedSource τ] {size : Nat} (hsize : shape.Supports size)
    (source : τ) : (sized size source).engine = .ok ⟨(shape.keyed size source).1⟩ := by
  rw [engine, withSize, checkSize, if_pos hsize]
  rfl

theorem savedSized_engine {size : Nat} (hsize : shape.Supports size) (text : String) :
    (savedSized size text : Origin shape).engine = decodeSized size text :=
  decodeWithSize_eq hsize text

theorem exists_engine (htext : origin.text? = none) (hsize : shape.Supports origin.size) :
    ∃ s, origin.engine = .ok s := by
  cases origin with
  | seeded seed => exact ⟨_, seeded_engine seed⟩
  | keyed source => exact ⟨_, keyed_engine source⟩
  | sized size source => exact ⟨_, sized_engine hsize source⟩
  | saved text => cases htext
  | savedSized size text => cases htext

theorem engine_cases (hengine : origin.engine = .ok s) :
    (∃ key : Array (BitVec shape.entry), origin.text? = none ∧ 0 < key.size ∧
        s.toState = (State.identity shape.entry origin.size).schedule key ∧
        origin.checked? =
          Arc4.mk <$> (State.identity shape.entry origin.size).schedule? key) ∨
      ∃ text, origin.text? = some text ∧ decodeSized origin.size text = .ok s ∧
        origin.checked? = some s := by
  have hsize := supports_size hengine
  cases origin with
  | seeded seed =>
      rw [seeded_engine] at hengine
      cases hengine
      exact .inl ⟨(shape.keyMaterial shape.fullSize (SplitMix.mk seed)).1, rfl,
        hsize.size_keyMaterial_pos (SplitMix.mk seed),
        shape.keyed_fst shape.fullSize (SplitMix.mk seed), rfl⟩
  | keyed source =>
      rw [keyed_engine] at hengine
      cases hengine
      exact .inl ⟨(shape.keyMaterial shape.fullSize source).1, rfl,
        hsize.size_keyMaterial_pos source, shape.keyed_fst shape.fullSize source, rfl⟩
  | sized size source =>
      have hsize : shape.Supports size := hsize
      rw [sized_engine hsize] at hengine
      cases hengine
      exact .inl ⟨(shape.keyMaterial size source).1, rfl, hsize.size_keyMaterial_pos source,
        shape.keyed_fst size source, rfl⟩
  | saved text =>
      have hdecode : decode text = .ok s := hengine
      refine .inr ⟨text, rfl, hdecode, ?_⟩
      rw [checked?, hdecode]
      rfl
  | savedSized size text =>
      have hsize : shape.Supports size := hsize
      have hdecode : decodeWithSize size text = .ok s := hengine
      rw [savedSized_engine hsize] at hengine
      refine .inr ⟨text, rfl, hengine, ?_⟩
      rw [checked?, hdecode]
      rfl

theorem valid_engine (hengine : origin.engine = .ok s) : s.size = origin.size ∧ s.Valid := by
  have hsize := supports_size hengine
  rcases engine_cases hengine with ⟨key, -, -, hstate, -⟩ | ⟨text, -, hdecode, -⟩
  · rw [hstate, State.size_schedule, State.size_identity]
    exact ⟨rfl, (State.valid_identity hsize.pos hsize.le_two_pow_entry).schedule key⟩
  · exact valid_of_decodeSized hsize hdecode

theorem checked?_eq (hengine : origin.engine = .ok s) : origin.checked? = some s := by
  have hsize := supports_size hengine
  rcases engine_cases hengine with ⟨key, -, hkey, hstate, hchecked⟩ | ⟨text, -, -, hchecked⟩
  · have hvalid := State.valid_identity hsize.pos hsize.le_two_pow_entry
    rw [hchecked, hvalid.schedule?_eq hkey, ← hstate]
    rfl
  · exact hchecked

end Origin

/-! ### One move -/

theorem rekey_eq_ok {key : Array (BitVec shape.entry)} (hkey : 0 < key.size) (s : Arc4 shape) :
    s.rekey key = .ok ⟨s.schedule key⟩ := by
  refine if_neg ?_
  rw [Array.isEmpty_iff_size_eq_zero]
  exact Nat.ne_of_gt hkey

namespace Move

variable {s : Arc4 shape}

theorem next_apply (s : Arc4 shape) :
    (next : Move shape).apply s = ⟨s.advance (Word.chunkCount shape.word shape.bits)⟩ := by
  have hgather := State.gather_snd shape.bits shape.bits_pos 0 (0 : BitVec shape.word) s.toState
  rw [Nat.sub_zero] at hgather
  rw [← hgather]
  rfl

theorem rekey_apply_of_isEmpty {key : Array (BitVec shape.entry)} (hkey : key.isEmpty = true)
    (s : Arc4 shape) : (rekey key).apply s = s := by
  rw [apply, Arc4.rekey, if_pos hkey]

theorem rekey_apply_of_not_isEmpty {key : Array (BitVec shape.entry)} (hkey : ¬ key.isEmpty = true)
    (s : Arc4 shape) : (rekey key).apply s = ⟨s.schedule key⟩ := by
  rw [apply, Arc4.rekey, if_neg hkey]

theorem reseed_apply (seed : UInt64) (s : Arc4 shape) : (reseed seed : Move shape).apply s =
    ⟨(shape.keyed s.size (SplitMix.mk seed)).1⟩ := rfl

theorem reseedFrom_apply {τ : Type} [SeedSource τ] (source : τ) (s : Arc4 shape) :
    (reseedFrom source).apply s = ⟨(shape.keyed s.size source).1⟩ := rfl

/-- A move steps the table, or schedules a key on it or on the one that holds its own places. -/
theorem apply_cases (move : Move shape) (s : Arc4 shape) :
    (∃ count, move.apply s = ⟨s.advance count⟩) ∨
      (∃ key, move.apply s = ⟨s.schedule key⟩) ∨
      ∃ key, move.apply s = ⟨(State.identity shape.entry s.size).schedule key⟩ := by
  cases move with
  | next => exact .inl ⟨_, next_apply s⟩
  | discard count => exact .inl ⟨_, rfl⟩
  | rekey key =>
      by_cases hkey : key.isEmpty = true
      · exact .inl ⟨0, rekey_apply_of_isEmpty hkey s⟩
      · exact .inr (.inl ⟨key, rekey_apply_of_not_isEmpty hkey s⟩)
  | reseed seed =>
      refine .inr (.inr ⟨(shape.keyMaterial s.size (SplitMix.mk seed)).1, ?_⟩)
      rw [reseed_apply, Shape.keyed_fst]
  | reseedFrom source =>
      refine .inr (.inr ⟨(shape.keyMaterial s.size source).1, ?_⟩)
      rw [reseedFrom_apply, Shape.keyed_fst]

@[simp] theorem size_apply (move : Move shape) (s : Arc4 shape) :
    (move.apply s).size = s.size := by
  rcases apply_cases move s with ⟨count, happly⟩ | ⟨key, happly⟩ | ⟨key, happly⟩
  · rw [happly, State.size_advance]
  · rw [happly, State.size_schedule]
  · rw [happly, State.size_schedule, State.size_identity]

theorem valid_apply (hs : s.Valid) (hsize : shape.Supports s.size) (move : Move shape) :
    (move.apply s).Valid := by
  rcases apply_cases move s with ⟨count, happly⟩ | ⟨key, happly⟩ | ⟨key, happly⟩
  · rw [happly]
    exact hs.advance count
  · rw [happly]
    exact hs.schedule key
  · rw [happly]
    exact (State.valid_identity hsize.pos hsize.le_two_pow_entry).schedule key

theorem checked?_eq (hs : s.Valid) (hsize : shape.Supports s.size) (move : Move shape) :
    move.checked? s = some (move.apply s) := by
  cases move with
  | next =>
      rw [checked?, hs.gather?_eq shape.bits_pos]
      rfl
  | discard count =>
      rw [checked?, hs.advance?_eq]
      rfl
  | rekey key =>
      by_cases hkey : key.isEmpty = true
      · rw [checked?, if_pos hkey, rekey_apply_of_isEmpty hkey]
      · have hpos : 0 < key.size := by
          rw [Array.isEmpty_iff_size_eq_zero] at hkey
          exact Nat.pos_of_ne_zero hkey
        rw [checked?, if_neg hkey, rekey_apply_of_not_isEmpty hkey, hs.schedule?_eq hpos]
        rfl
  | reseed seed =>
      rw [checked?, hsize.keyed?_eq]
      rfl
  | reseedFrom source =>
      rw [checked?, hsize.keyed?_eq]
      rfl

end Move

/-! ### Whole runs -/

@[simp] theorem size_run (moves : List (Move shape)) (s : Arc4 shape) :
    (run moves s).size = s.size := by
  induction moves generalizing s with
  | nil => rfl
  | cons move later ih => rw [run, ih, Move.size_apply]

theorem valid_run {s : Arc4 shape} (hs : s.Valid) (hsize : shape.Supports s.size)
    (moves : List (Move shape)) : (run moves s).Valid := by
  induction moves generalizing s with
  | nil => exact hs
  | cons move later ih =>
      apply ih (Move.valid_apply hs hsize move)
      rwa [Move.size_apply]

theorem run?_eq {s : Arc4 shape} (hs : s.Valid) (hsize : shape.Supports s.size)
    (moves : List (Move shape)) : run? moves s = some (run moves s) := by
  induction moves generalizing s with
  | nil => rfl
  | cons move later ih =>
      rw [run?, Move.checked?_eq hs hsize]
      apply ih (Move.valid_apply hs hsize move)
      rwa [Move.size_apply]

/-- **The table is a permutation and the cursors lie inside it, at every point of every run.** The
size stays the same, and the run with every place checked has the same result. -/
theorem valid_run_of_origin (origin : Origin shape) :
    (origin.text? = none → shape.Supports origin.size → ∃ s, origin.engine = .ok s) ∧
      ∀ s, origin.engine = .ok s → ∀ moves : List (Move shape),
        shape.Supports origin.size ∧ (run moves s).size = origin.size ∧ (run moves s).Valid ∧
          origin.checked? = some s ∧ run? moves s = some (run moves s) := by
  refine ⟨Origin.exists_engine, ?_⟩
  intro s hengine moves
  have hsupports := Origin.supports_size hengine
  obtain ⟨hsize, hs⟩ := Origin.valid_engine hengine
  rw [← hsize] at hsupports ⊢
  exact ⟨hsupports, size_run moves s, valid_run hs hsupports moves, Origin.checked?_eq hengine,
    run?_eq hs hsupports moves⟩

theorem valid_run_of_saved_three :
    (Origin.savedSized 3 " 1\t+2 2 00 1" : Origin .bytes32).engine = .ok ⟨⟨1, 2, #[2, 0, 1]⟩⟩ ∧
      (run [.rekey #[], .next, .rekey #[200, 7], .discard 5, .reseedFrom (SeedMixer.mk [9])]
        (⟨⟨1, 2, #[2, 0, 1]⟩⟩ : Arc4 .bytes32)).Valid ∧
      ∃ s, (Origin.sized 5 (SplitMix.mk 1) : Origin .bytes32).engine = .ok s := by
  have hengine : (Origin.savedSized 3 " 1\t+2 2 00 1" : Origin .bytes32).engine =
      .ok ⟨⟨1, 2, #[2, 0, 1]⟩⟩ := by decide +kernel
  exact ⟨hengine, ((valid_run_of_origin _).2 _ hengine _).2.2.1,
    (valid_run_of_origin _).1 rfl (by decide)⟩

end Keystream.Arc4
