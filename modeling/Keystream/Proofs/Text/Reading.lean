import Keystream.Proofs.Stateful
import Keystream.Text.Reader

/-!
# Readings that succeed

A number below a limit has been read when a number has been read and is below the limit. A text has
been decoded when its reading has returned and has left no token behind.
-/

namespace Keystream.Text.Reader

open Stateful

variable {reader after : Reader}

theorem numberBelow_eq_ok {limit value : Nat} :
    numberBelow limit reader = (.ok value, after) ↔
      value < limit ∧ number reader = (.ok value, after) := by
  rw [numberBelow, bind_eq_ok]
  constructor
  · rintro ⟨read, between, hnumber, hrest⟩
    split at hrest
    · rename_i hlt
      obtain ⟨rfl, rfl⟩ := pure_eq_ok.1 hrest
      exact ⟨hlt, hnumber⟩
    · obtain ⟨_, _, _, hthrow⟩ := bind_eq_ok.1 hrest
      exact absurd hthrow throw_ne_ok
  · rintro ⟨hlt, hnumber⟩
    refine ⟨value, after, hnumber, ?_⟩
    rw [if_pos hlt]
    rfl

theorem finish_eq_ok : finish reader = (.ok (), after) ↔ reader.pending = [] ∧ reader = after := by
  rcases reader with ⟨_ | ⟨token, pending⟩, position, expected⟩
  · show (Except.ok (), _) = _ ↔ _
    simp
  · show (Except.error (Error.goesOn expected), _) = _ ↔ _
    simp

theorem decode_eq_ok {α : Type} {text : String} {expected : Nat} {reading : Reading α} {a : α} :
    decode text expected reading = .ok a ↔
      ∃ after, reading (ofText text expected) = (.ok a, after) ∧ after.pending = [] := by
  have hwhole : decode text expected reading = .ok a ↔ ∃ after, (do
      let state ← reading
      finish
      return state : Reading α) (ofText text expected) = (.ok a, after) :=
    ⟨fun hdecode => ⟨_, Prod.ext hdecode rfl⟩, fun ⟨_, hrun⟩ => congrArg Prod.fst hrun⟩
  rw [hwhole]
  constructor
  · rintro ⟨after, hrun⟩
    obtain ⟨state, between, hreading, hrest⟩ := bind_eq_ok.1 hrun
    obtain ⟨_, finished, hfinish, hreturn⟩ := bind_eq_ok.1 hrest
    obtain ⟨rfl, _⟩ := pure_eq_ok.1 hreturn
    exact ⟨between, hreading, (finish_eq_ok.1 hfinish).1⟩
  · rintro ⟨after, hreading, hend⟩
    refine ⟨after, ?_⟩
    rw [bind_of_ok hreading, bind_of_ok (finish_eq_ok.2 ⟨hend, rfl⟩)]
    rfl

end Keystream.Text.Reader
