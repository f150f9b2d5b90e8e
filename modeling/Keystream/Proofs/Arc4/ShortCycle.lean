import Keystream.Proofs.Arc4.Run
import Keystream.Proofs.Arc4.Saved
import Keystream.Proofs.Counting

/-!
# The short cycle

When `j` stands one place ahead of `i`, on the entry one, every step carries that entry one place
further and both cursors with it. A table in this position merely rotates, and its outputs repeat
soon. A step leads to such a position only from such a position, so an engine that is not on the
short cycle never gets onto it: it is enough that a key schedule puts `j` on `i` before it throws
the first steps away.
-/

namespace Keystream.Arc4

namespace State

variable {e : Nat}

def ShortCycle (s : State e) : Prop :=
  s.j = (s.i + 1) % s.size ∧ s.entryAt s.j = 1

instance (s : State e) : Decidable s.ShortCycle :=
  inferInstanceAs (Decidable (_ ∧ _))

namespace Valid

variable {s : State e}

theorem entryAt_j_stir (hs : s.Valid) (key : Nat) :
    (s.stir key).entryAt (s.stir key).j = s.entryAt ((s.i + 1) % s.size) := by
  have hi : (s.stir key).i < s.table.size := Nat.mod_lt _ hs.size_pos
  have hj : (s.stir key).j < s.table.size := Nat.mod_lt _ hs.size_pos
  rw [entryAt, entryAt, table_stir, Array.getD_eq_getD_getElem?, Array.getD_eq_getD_getElem?,
    getElem?_swapIfInBounds hi hj, if_pos rfl, i_stir]

/-- The short cycle is closed under stirring in both directions. -/
theorem shortCycle_stir (hs : s.Valid) : (s.stir 0).ShortCycle ↔ s.ShortCycle := by
  have hi : (s.i + 1) % s.size < s.size := Nat.mod_lt _ hs.size_pos
  rw [ShortCycle, ShortCycle, hs.entryAt_j_stir, i_stir, j_stir, size_stir, Nat.add_zero]
  constructor
  · intro ⟨hnext, hone⟩
    -- `j` has moved on by the entry one, as `i` has, so it stood on the place that `i` came upon
    rw [hone] at hnext
    have hj := eq_of_succ_mod_eq hs.j_lt hi hnext
    exact ⟨hj, hj ▸ hone⟩
  · intro ⟨hj, hone⟩
    rw [← hj, hone]
    exact ⟨rfl, rfl⟩

theorem shortCycle_advance (hs : s.Valid) (count : Nat) :
    (s.advance count).ShortCycle ↔ s.ShortCycle := by
  induction count generalizing s with
  | zero => exact Iff.rfl
  | succ count ih => exact (ih (hs.stir 0)).trans hs.shortCycle_stir

theorem not_shortCycle_joined (hs : s.Valid) (htwo : 2 ≤ s.size) :
    ¬ ({ s with j := s.i } : State e).ShortCycle := by
  intro ⟨hnext, _⟩
  exact ne_add_mod hs.i_lt Nat.one_pos htwo hnext

theorem not_shortCycle_schedule (hs : s.Valid) (htwo : 2 ≤ s.size) (key : Array (BitVec e)) :
    ¬ (s.schedule key).ShortCycle := by
  have hpassed := hs.passed key s.size
  have hjoined := hpassed.not_shortCycle_joined ((size_passed key s s.size).symm ▸ htwo)
  rw [schedule_eq]
  exact mt (hpassed.joined.shortCycle_advance discardedSteps).1 hjoined

end Valid

end State

variable {shape : Shape} {s t : Arc4 shape}

theorem Shape.Supports.not_shortCycle_schedule_identity {size : Nat} (hsize : shape.Supports size)
    (key : Array (BitVec shape.entry)) :
    ¬ ((State.identity shape.entry size).schedule key).ShortCycle :=
  (State.valid_identity hsize.pos hsize.le_two_pow_entry).not_shortCycle_schedule
    ((State.size_identity shape.entry size).symm ▸ hsize.1) key

/-! ### Reached engines -/

/-- Engines that come about from seeds and do whatever is asked, or are saved and restored. -/
inductive Reached : Arc4 shape → Prop
  | origin {origin : Origin shape} {s : Arc4 shape} (htext : origin.text? = none)
      (hengine : origin.engine = .ok s) : Reached s
  | move {s : Arc4 shape} (hs : Reached s) (move : Move shape) : Reached (move.apply s)
  | restored {origin : Origin shape} {s t : Arc4 shape} (hs : Reached s)
      (htext : origin.text? = some s.encode) (hengine : origin.engine = .ok t) : Reached t

theorem reached_initial : Reached (initial : Arc4 shape) :=
  have hengine : (Origin.seeded defaultSeed : Origin shape).engine = .ok initial := rfl
  .origin rfl hengine

structure OffCycle (s : Arc4 shape) : Prop where
  supports : shape.Supports s.size
  valid : s.Valid
  not_shortCycle : ¬ s.ShortCycle

namespace OffCycle

theorem of_origin {origin : Origin shape} (htext : origin.text? = none)
    (hengine : origin.engine = .ok s) : OffCycle s := by
  have hsupports := Origin.supports_size hengine
  obtain ⟨hsize, hs⟩ := Origin.valid_engine hengine
  refine ⟨hsize ▸ hsupports, hs, ?_⟩
  rcases Origin.engine_cases hengine with ⟨key, -, -, hstate, -⟩ | ⟨text, hsome, -, -⟩
  · rw [hstate]
    exact hsupports.not_shortCycle_schedule_identity key
  · rw [htext] at hsome
    cases hsome

theorem apply (hs : OffCycle s) (move : Move shape) : OffCycle (move.apply s) := by
  refine ⟨(Move.size_apply move s).symm ▸ hs.supports,
    Move.valid_apply hs.valid hs.supports move, ?_⟩
  rcases Move.apply_cases move s with ⟨count, happly⟩ | ⟨key, happly⟩ | ⟨key, happly⟩
  · rw [happly]
    exact mt (hs.valid.shortCycle_advance count).1 hs.not_shortCycle
  · rw [happly]
    exact hs.valid.not_shortCycle_schedule hs.supports.1 key
  · rw [happly]
    exact hs.supports.not_shortCycle_schedule_identity key

end OffCycle

theorem eq_of_restored {origin : Origin shape} (hs : s.Valid) (hsupports : shape.Supports s.size)
    (htext : origin.text? = some s.encode) (hengine : origin.engine = .ok t) : t = s := by
  rcases Origin.engine_cases hengine with ⟨key, hnone, -⟩ | ⟨text, hsome, hdecode, -⟩
  · rw [htext] at hnone
    cases hnone
  · obtain rfl : s.encode = text := Option.some.inj (htext.symm.trans hsome)
    have hsize := Origin.supports_size hengine
    exact ((decodeSized_encode_eq_ok hs hsupports hsize).1 hdecode).1

theorem Reached.offCycle (hs : Reached s) : OffCycle s := by
  induction hs with
  | origin htext hengine => exact .of_origin htext hengine
  | move _ move ih => exact ih.apply move
  | restored _ htext hengine ih =>
      rw [eq_of_restored ih.valid ih.supports htext hengine]
      exact ih

theorem Reached.savedSized_engine (hs : Reached s) :
    (Origin.savedSized s.size s.encode).engine = .ok s := by
  have hsupports := hs.offCycle.supports
  rw [Origin.savedSized_engine hsupports,
    decodeSized_encode_eq_ok hs.offCycle.valid hsupports hsupports]
  exact ⟨rfl, rfl⟩

/-- **The short cycle is avoided.** A step leads onto it exactly from it, and no engine is on it,
however it was seeded, keyed again, stepped, saved and restored. -/
theorem shortCycle_avoided :
    (∀ {e : Nat} {s : State e}, s.Valid → (s.step.2.ShortCycle ↔ s.ShortCycle)) ∧
      ∀ {shape : Shape} {s : Arc4 shape}, Reached s → ¬ s.ShortCycle :=
  ⟨fun hs => hs.shortCycle_stir, fun hs => hs.offCycle.not_shortCycle⟩

theorem shortCycle_avoided_restored :
    (⟨2, 0, #[1, 2, 0]⟩ : State 8).step.2.ShortCycle ∧
      ∃ s t : Arc4 .bytes32, (Move.discard 3).apply initial = s ∧
        (Origin.savedSized s.size s.encode).engine = .ok t ∧
          ¬ ((Move.rekey #[5, 8]).apply t).ShortCycle := by
  have hvalid : (⟨2, 0, #[1, 2, 0]⟩ : State 8).Valid := ⟨by decide, by decide, by decide⟩
  refine ⟨(shortCycle_avoided.1 hvalid).2 (by decide), ?_⟩
  obtain ⟨s, hs⟩ : ∃ s : Arc4 .bytes32, (Move.discard 3).apply initial = s := ⟨_, rfl⟩
  have hreached : Reached s := hs ▸ reached_initial.move (.discard 3)
  have hrestored := hreached.restored rfl hreached.savedSized_engine
  exact ⟨s, s, hs, hreached.savedSized_engine,
    shortCycle_avoided.2 (hrestored.move (.rekey #[5, 8]))⟩

end Keystream.Arc4
