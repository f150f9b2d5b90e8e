import Keystream.Proofs.Arc4.Discard

/-!
# The cursor without secrets

The cursor `i` goes around the table one place at a time and looks at no entry on its way. Where it
stands can be told from what was asked of an engine and in which order; seeds and keys have no part
in it. A key-schedule pass goes once around from the place under `i` and so ends one place before
it, and the steps thrown away behind the pass lead on from there. Altogether these are 1023 places,
an odd number, and a full table has an even one. Scheduling a key on a full table thus never leaves
the cursor where it was.
-/

namespace Keystream.Arc4

namespace State

variable {e : Nat} {s : State e}

theorem i_passed (key : Array (BitVec e)) (s : State e) (count : Nat) :
    (s.passed key count).i = (s.i + s.size - 1 + count) % s.size := by
  induction count with
  | zero => rfl
  | succ count ih => rw [passed_succ, i_stir, size_passed, ih, Nat.mod_add_mod, Nat.add_assoc]

theorem Valid.i_schedule (hs : s.Valid) (key : Array (BitVec e)) :
    (s.schedule key).i = (s.i + 1023) % s.size := by
  have hpos := hs.size_pos
  have hjoined := (hs.passed key s.size).joined
  calc (s.schedule key).i
    _ = ((s.passed key s.size).i + discardedSteps) % (s.passed key s.size).size := by
        rw [schedule_eq]
        exact hjoined.i_advance discardedSteps
    _ = (s.i + s.size - 1 + s.size + 1024) % s.size := by
        rw [i_passed, size_passed, Nat.mod_add_mod, discardedSteps]
    _ = (s.i + 1023 + s.size * 2) % s.size := by
        congr 1
        omega
    _ = (s.i + 1023) % s.size := Nat.add_mul_mod_self_left _ _ _

end State

variable {shape : Shape}

theorem Shape.Supports.i_schedule_identity {size : Nat} (hsize : shape.Supports size)
    (key : Array (BitVec shape.entry)) :
    ((State.identity shape.entry size).schedule key).i = 1023 % size := by
  rw [(State.valid_identity hsize.pos hsize.le_two_pow_entry).i_schedule, State.size_identity,
    State.identity, Nat.zero_add]

theorem Origin.i_engine {origin : Origin shape} {s : Arc4 shape} (htext : origin.text? = none)
    (hengine : origin.engine = .ok s) : s.i = 1023 % origin.size := by
  rcases engine_cases hengine with ⟨key, -, -, hstate, -⟩ | ⟨text, hsome, -, -⟩
  · rw [hstate, (supports_size hengine).i_schedule_identity]
  · rw [htext] at hsome
    cases hsome

/-! ### Moves without their secrets -/

/-- What is left of a move when its seed or its key is kept from view. -/
inductive Kind
  | next
  | discard (count : UInt64)
  | rekey
  /-- A key without entries, which is refused. -/
  | refusedKey
  | reseed
  deriving DecidableEq

def Move.kind : Move shape → Kind
  | next => .next
  | discard count => .discard count
  | rekey key => if key.isEmpty then .refusedKey else .rekey
  | reseed _ | reseedFrom _ => .reseed

/-- Where a move leaves the cursor that stands on `i` in a table of `size` entries. -/
def Kind.cursor (shape : Shape) (size i : Nat) : Kind → Nat
  | next => (i + Word.chunkCount shape.word shape.bits) % size
  | discard count => (i + stepsFor shape count) % size
  | rekey => (i + 1023) % size
  | refusedKey => i
  | reseed => 1023 % size

variable {s : Arc4 shape}

theorem Move.i_apply (hs : s.Valid) (hsize : shape.Supports s.size) (move : Move shape) :
    (move.apply s).i = move.kind.cursor shape s.size s.i := by
  cases move with
  | next =>
      rw [next_apply]
      exact State.Valid.i_advance hs _
  | discard count => exact State.Valid.i_advance hs (stepsFor shape count)
  | rekey key =>
      by_cases hkey : key.isEmpty = true
      · rw [rekey_apply_of_isEmpty hkey, kind, if_pos hkey]
        rfl
      · rw [rekey_apply_of_not_isEmpty hkey, kind, if_neg hkey]
        exact State.Valid.i_schedule hs key
  | reseed seed =>
      rw [reseed_apply, Shape.keyed_fst, hsize.i_schedule_identity]
      rfl
  | reseedFrom source =>
      rw [reseedFrom_apply, Shape.keyed_fst, hsize.i_schedule_identity]
      rfl

theorem i_run (hs : s.Valid) (hsize : shape.Supports s.size) (moves : List (Move shape)) :
    (run moves s).i = (moves.map Move.kind).foldl (Kind.cursor shape s.size) s.i := by
  induction moves generalizing s with
  | nil => rfl
  | cons move later ih =>
      have hsize' : shape.Supports (move.apply s).size := by rwa [Move.size_apply]
      rw [run, ih (Move.valid_apply hs hsize move) hsize', Move.i_apply hs hsize, Move.size_apply,
        List.map_cons, List.foldl_cons]

theorem Kind.foldl_cursor_of_reseed {size : Nat} {kinds : List Kind} (hreseed : .reseed ∈ kinds)
    (i i' : Nat) : kinds.foldl (cursor shape size) i = kinds.foldl (cursor shape size) i' := by
  induction kinds generalizing i i' with
  | nil => cases hreseed
  | cons kind later ih =>
      rcases List.mem_cons.1 hreseed with rfl | hlater
      · rfl
      · exact ih hlater _ _

theorem i_run_eq_i_run {first second : Origin shape} {t : Arc4 shape}
    (hfirst : first.engine = .ok s) (hsecond : second.engine = .ok t)
    (hsame : first.size = second.size) {moves others : List (Move shape)}
    (hkinds : moves.map Move.kind = others.map Move.kind)
    (hstart : first.text? = none ∧ second.text? = none ∨ .reseed ∈ moves.map Move.kind) :
    (run moves s).i = (run others t).i := by
  obtain ⟨hsizeS, hs⟩ := Origin.valid_engine hfirst
  obtain ⟨hsizeT, ht⟩ := Origin.valid_engine hsecond
  rw [i_run hs (hsizeS ▸ Origin.supports_size hfirst),
    i_run ht (hsizeT ▸ Origin.supports_size hsecond), ← hkinds, hsizeS, hsizeT, ← hsame]
  rcases hstart with ⟨hkeyed, hkeyed'⟩ | hreseed
  · rw [Origin.i_engine hkeyed hfirst, Origin.i_engine hkeyed' hsecond, hsame]
  · exact Kind.foldl_cursor_of_reseed hreseed _ _

theorem Shape.add_mod_fullSize_ne (shape : Shape) (place : Nat) :
    (place + 1023) % shape.fullSize ≠ place := by
  intro hsame
  have heven : 2 ∣ shape.fullSize := by
    rw [shape.fullSize_eq]
    exact Nat.pow_dvd_pow 2 (Nat.succ_le_of_lt shape.bits_pos)
  have hparity := Nat.mod_mod_of_dvd (place + 1023) heven
  rw [hsame] at hparity
  omega

theorem schedule_ne (hs : s.Valid) (hfull : s.size = shape.fullSize)
    (key : Array (BitVec shape.entry)) : s.schedule key ≠ s.toState := by
  intro hsame
  have hi : (s.schedule key).i = s.i := congrArg State.i hsame
  rw [State.Valid.i_schedule hs, hfull] at hi
  exact shape.add_mod_fullSize_ne s.i hi

/-- **The cursor `i` tells nothing of seeds and keys.** A step moves it on by one place and a key by
1023, so it stands where the kinds of moves lead it. In a full table no key leaves an engine as it
was. -/
theorem cursor_without_secrets (shape : Shape) :
    (∀ {s : Arc4 shape}, s.Valid → s.step.2.i = (s.i + 1) % s.size ∧
      ∀ key, (s.schedule key).i = (s.i + 1023) % s.size) ∧
    (∀ {origin : Origin shape} {s : Arc4 shape}, origin.text? = none → origin.engine = .ok s →
      s.i = 1023 % s.size) ∧
    (∀ {s : Arc4 shape}, s.Valid → shape.Supports s.size → ∀ moves : List (Move shape),
      (run moves s).i = (moves.map Move.kind).foldl (Kind.cursor shape s.size) s.i) ∧
    (∀ {first second : Origin shape} {s t : Arc4 shape}, first.engine = .ok s →
      second.engine = .ok t → first.size = second.size → ∀ {moves others : List (Move shape)},
        moves.map Move.kind = others.map Move.kind →
        first.text? = none ∧ second.text? = none ∨ .reseed ∈ moves.map Move.kind →
        (run moves s).i = (run others t).i) ∧
    ∀ {s : Arc4 shape}, s.Valid → s.size = shape.fullSize →
      ∀ key : Array (BitVec shape.entry), 0 < key.size → ∃ t, s.rekey key = .ok t ∧ t ≠ s := by
  refine ⟨fun hs => ⟨rfl, State.Valid.i_schedule hs⟩, ?_, i_run, i_run_eq_i_run, ?_⟩
  · intro origin s htext hengine
    rw [Origin.i_engine htext hengine, (Origin.valid_engine hengine).1]
  · intro s hs hfull key hkey
    refine ⟨⟨s.schedule key⟩, rekey_eq_ok hkey s, ?_⟩
    intro hsame
    exact schedule_ne hs hfull key (congrArg toState hsame)

/-- Two engines with three entries each, and the engine for which nobody chooses a seed. -/
theorem cursor_without_secrets_three :
    let first : Origin .bytes32 := .sized 3 (SplitMix.mk 1)
    let second : Origin .bytes32 := .sized 3 (SeedMixer.mk [9])
    let moves : List (Move .bytes32) :=
      [.next, .rekey #[5], .discard 7, .reseed 3, .rekey #[], .rekey #[200, 2], .next]
    let others : List (Move .bytes32) :=
      [.next, .rekey #[1, 8, 8, 1], .discard 7, .reseedFrom (SplitMix.mk 4), .rekey #[],
        .rekey #[0], .next]
    (∃ s t, first.engine = .ok s ∧ second.engine = .ok t ∧ s.i = 0 ∧
      (run moves s).i = 1 ∧ (run others t).i = 1) ∧
      ∃ t : Arc4 .bytes32, initial.rekey #[7] = .ok t ∧ t ≠ initial := by
  intro first second moves others
  obtain ⟨-, hseeded, hrun, hruns, hrekey⟩ := cursor_without_secrets .bytes32
  have hsupports : Shape.bytes32.Supports 3 := by decide
  obtain ⟨s, hs⟩ : ∃ s, first.engine = .ok s := Origin.exists_engine rfl hsupports
  obtain ⟨t, ht⟩ : ∃ t, second.engine = .ok t := Origin.exists_engine rfl hsupports
  obtain ⟨hsize, hvalid⟩ : s.size = 3 ∧ s.Valid := Origin.valid_engine hs
  have hi : s.i = 0 := by rw [hseeded rfl hs, hsize]
  have hmoves : (run moves s).i = 1 := by
    rw [hrun hvalid (hsize ▸ hsupports) moves, hsize, hi]
    decide
  have hkinds : moves.map Move.kind = others.map Move.kind := by decide
  refine ⟨⟨s, t, hs, ht, hi, hmoves, ?_⟩, ?_⟩
  · rw [← hruns hs ht rfl hkinds (.inl ⟨rfl, rfl⟩), hmoves]
  · have hinitial : (Origin.seeded defaultSeed : Origin .bytes32).engine = .ok initial := rfl
    obtain ⟨hfull, hvalid⟩ := Origin.valid_engine hinitial
    exact hrekey hvalid hfull #[7] (by decide)

end Keystream.Arc4
