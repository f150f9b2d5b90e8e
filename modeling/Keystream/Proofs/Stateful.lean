import Mathlib.Logic.Basic

/-!
# Computations that keep a state

Readings of a text and draws from an engine are both computations that end in a value or in an
error and leave a state behind in either case. These lemmas take such a computation apart into the
runs of its parts, so that no proof has to unfold the monad. Calls that are made one after another
are a run as well, and two of them agree when every single call does.
-/

namespace Keystream.Stateful

universe u v

/-! ### Computations that may fail -/

section Failing

variable {ε σ α β : Type} {before after : σ}

theorem bind_of_ok {first : ExceptT ε (StateM σ) α} {rest : α → ExceptT ε (StateM σ) β} {a : α}
    (hfirst : first before = (.ok a, after)) : (first >>= rest) before = rest a after := by
  change (StateT.bind first (ExceptT.bindCont rest)) before = rest a after
  simp only [StateT.bind, hfirst]
  rfl

theorem bind_of_error {first : ExceptT ε (StateM σ) α} {rest : α → ExceptT ε (StateM σ) β}
    {cause : ε} (hfirst : first before = (.error cause, after)) :
    (first >>= rest) before = (.error cause, after) := by
  change (StateT.bind first (ExceptT.bindCont rest)) before = (.error cause, after)
  simp only [StateT.bind, hfirst]
  rfl

theorem bind_eq_ok {first : ExceptT ε (StateM σ) α} {rest : α → ExceptT ε (StateM σ) β} {b : β} :
    (first >>= rest) before = (.ok b, after) ↔
      ∃ a between, first before = (.ok a, between) ∧ rest a between = (.ok b, after) := by
  constructor
  · intro hbind
    rcases hfirst : first before with ⟨cause | a, between⟩
    · rw [bind_of_error hfirst] at hbind
      cases hbind
    · rw [bind_of_ok hfirst] at hbind
      exact ⟨a, between, rfl, hbind⟩
  · rintro ⟨a, between, hfirst, hrest⟩
    rw [bind_of_ok hfirst]
    exact hrest

theorem bind_eq_error {first : ExceptT ε (StateM σ) α} {rest : α → ExceptT ε (StateM σ) β}
    {cause : ε} :
    (first >>= rest) before = (.error cause, after) ↔
      first before = (.error cause, after) ∨
        ∃ a between, first before = (.ok a, between) ∧ rest a between = (.error cause, after) := by
  constructor
  · intro hbind
    rcases hfirst : first before with ⟨found | a, between⟩
    · rw [bind_of_error hfirst] at hbind
      cases hbind
      exact .inl rfl
    · rw [bind_of_ok hfirst] at hbind
      exact .inr ⟨a, between, rfl, hbind⟩
  · rintro (hfirst | ⟨a, between, hfirst, hrest⟩)
    · exact bind_of_error hfirst
    · rw [bind_of_ok hfirst]
      exact hrest

theorem pure_eq_ok {a b : α} :
    (pure a : ExceptT ε (StateM σ) α) before = (.ok b, after) ↔ a = b ∧ before = after := by
  constructor
  · intro hpure
    cases hpure
    exact ⟨rfl, rfl⟩
  · rintro ⟨rfl, rfl⟩
    rfl

theorem pure_ne_error {a : α} {cause : ε} :
    (pure a : ExceptT ε (StateM σ) α) before ≠ (.error cause, after) := by
  intro hpure
  cases hpure

theorem bind_pure_eq_error {first : ExceptT ε (StateM σ) α} {f : α → β} {cause : ε} :
    (first >>= fun a => pure (f a)) before = (.error cause, after) ↔
      first before = (.error cause, after) := by
  rw [bind_eq_error]
  constructor
  · rintro (hfirst | ⟨a, between, -, hpure⟩)
    · exact hfirst
    · exact absurd hpure pure_ne_error
  · exact .inl

theorem throw_ne_ok {cause : ε} {a : α} :
    (throw cause : ExceptT ε (StateM σ) α) before ≠ (.ok a, after) := by
  intro hthrow
  cases hthrow

end Failing

/-! ### Calls in a row -/

variable {κ : Type u} {ω : Type v} {σ : Type}

/-- The answers to all the calls, in order, and the state after them. -/
def collect (perform : κ → σ → ω × σ) : List κ → σ → List ω × σ
  | [], s => ([], s)
  | call :: later, s =>
      let (answer, s) := perform call s
      let (rest, s) := collect perform later s
      (answer :: rest, s)

def Agree (related : σ → σ → Prop) (x y : ω × σ) : Prop :=
  x.1 = y.1 ∧ related x.2 y.2

theorem agree_collect {related : σ → σ → Prop} {perform : κ → σ → ω × σ}
    (hperform : ∀ call {s t}, related s t → Agree related (perform call s) (perform call t))
    (calls : List κ) {s t : σ} (hst : related s t) :
    Agree related (collect perform calls s) (collect perform calls t) := by
  induction calls generalizing s t with
  | nil => exact ⟨rfl, hst⟩
  | cons call later ih =>
      obtain ⟨hanswer, hbetween⟩ := hperform call hst
      obtain ⟨hrest, hafter⟩ := ih hbetween
      exact ⟨congrArg₂ List.cons hanswer hrest, hafter⟩

end Keystream.Stateful
