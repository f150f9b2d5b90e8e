import Keystream.Proofs.Seed.Steps

/-!
# Every word of the entropy matters

The first pass adds each word of the entropy to one place, and the steps before that are the same
for two mixers whose entropy differs in this word alone. The step that adds it leaves different
words where it stands, and none of the later steps of either pass loses anything, so the difference
is never lost. It does not matter how many places the buffer has, nor whether the entropy has to go
around it.
-/

namespace Keystream.SeedMixer

open Function Mixing

variable {n : Nat}

def added (mixer : SeedMixer) (hn : 0 < n) (count : Nat) : Vector UInt32 n :=
  Nat.fold count (fun k _ buffer => mixer.addStep hn k buffer) (Vector.replicate n fill)

def xored (hn : 0 < n) (start : Nat) (buffer : Vector UInt32 n) (count : Nat) : Vector UInt32 n :=
  Nat.fold count (fun k _ buffer => xorStep hn (start + k) buffer) buffer

theorem added_succ (mixer : SeedMixer) (hn : 0 < n) (count : Nat) :
    mixer.added hn (count + 1) = mixer.addStep hn count (mixer.added hn count) := by
  rw [added, Nat.fold_succ]
  rfl

theorem xored_succ (hn : 0 < n) (start : Nat) (buffer : Vector UInt32 n) (count : Nat) :
    xored hn start buffer (count + 1) =
      xorStep hn (start + count) (xored hn start buffer count) := by
  rw [xored, Nat.fold_succ]
  rfl

theorem mixed_eq (mixer : SeedMixer) (hn : 0 < n) :
    mixer.mixed hn = xored hn (mixer.addSteps n) (mixer.added hn (mixer.addSteps n)) n := rfl

/-! ### Nothing is lost in a pass -/

theorem injective_addStep (mixer : SeedMixer) (hn : 0 < n) (k : Nat) :
    Injective (mixer.addStep hn k) :=
  lossless_adding.injective_step (fun _ _ hsame => (UInt32.add_left_inj _).1 hsame) hn k

theorem injective_xorStep (hn : 0 < n) (k : Nat) : Injective (xorStep hn k) :=
  lossless_xoring.injective_step (fun _ _ hsame => (UInt32.sub_left_inj _).1 hsame) hn k

theorem injective_xored (hn : 0 < n) (start count : Nat) :
    Injective fun buffer => xored hn start buffer count := by
  induction count with
  | zero => exact fun _ _ hsame => hsame
  | succ count ih =>
      intro first second hsame
      simp only [xored_succ] at hsame
      exact ih (injective_xorStep hn (start + count) hsame)

/-! ### One word that differs -/

section

variable {first second : SeedMixer} {hn : 0 < n}

theorem addStep_congr {k : Nat} (haddend : first.addend n k = second.addend n k) :
    first.addStep hn k = second.addStep hn k := by
  funext buffer
  rw [addStep_eq, addStep_eq, haddend]

theorem addStep_ne {k : Nat} (haddend : first.addend n k ≠ second.addend n k)
    (buffer : Vector UInt32 n) : first.addStep hn k buffer ≠ second.addStep hn k buffer := by
  intro hsame
  have hhere := congrArg (Vector.get · (place hn k)) hsame
  simp only [addStep_eq, get_step_here] at hhere
  exact haddend ((UInt32.add_right_inj _).1 hhere)

theorem added_congr {count : Nat}
    (haddend : ∀ k < count, first.addend n k = second.addend n k) :
    first.added hn count = second.added hn count := by
  induction count with
  | zero => rfl
  | succ count ih =>
      rw [added_succ, added_succ, ih fun k hk => haddend k (Nat.lt_succ_of_lt hk),
        addStep_congr (haddend count (Nat.lt_succ_self count))]

theorem added_ne {step : Nat} (hdiffer : first.addend n step ≠ second.addend n step)
    (hsame : ∀ k, k ≠ step → first.addend n k = second.addend n k) {count : Nat}
    (hcount : step < count) : first.added hn count ≠ second.added hn count := by
  induction count, hcount using Nat.le_induction with
  | base =>
      rw [added_succ, added_succ, added_congr fun k hk => hsame k (Nat.ne_of_lt hk)]
      exact addStep_ne hdiffer _
  | succ count hle ih =>
      rw [added_succ, added_succ, addStep_congr (hsame count (Nat.ne_of_gt hle))]
      exact (injective_addStep second hn count).ne ih

theorem mixed_ne (hsize : first.size = second.size) {step : Nat} (hstep : step ≤ first.size)
    (hdiffer : first.addend n step ≠ second.addend n step)
    (hsame : ∀ k, k ≠ step → first.addend n k = second.addend n k) :
    first.mixed hn ≠ second.mixed hn := by
  have hsteps : first.addSteps n = second.addSteps n := by rw [addSteps, addSteps, hsize]
  have hreached : step < second.addSteps n := by
    rw [← hsteps, addSteps]
    omega
  rw [mixed_eq, mixed_eq, hsteps]
  exact (injective_xored hn _ n).ne (added_ne hdiffer hsame hreached)

theorem addend_succ (mixer : SeedMixer) (n k : Nat) :
    mixer.addend n (k + 1) = UInt32.ofNat ((k + 1) % n) + (mixer.entropy[k]?).getD 0 := by
  rw [← List.getD_eq_getElem?_getD]
  rfl

theorem addend_succ_eq {k : Nat} (hword : first.entropy[k]? = second.entropy[k]?) :
    first.addend n (k + 1) = second.addend n (k + 1) := by
  rw [addend_succ, addend_succ, hword]

theorem addend_succ_ne (hsize : first.size = second.size) {k : Nat} (hk : k < first.size)
    (hword : first.entropy[k]? ≠ second.entropy[k]?) :
    first.addend n (k + 1) ≠ second.addend n (k + 1) := by
  intro hsame
  have hk' : k < second.size := hsize ▸ hk
  rw [addend_succ, addend_succ, UInt32.add_right_inj, List.getElem?_eq_getElem hk,
    List.getElem?_eq_getElem hk', Option.getD_some, Option.getD_some] at hsame
  rw [List.getElem?_eq_getElem hk, List.getElem?_eq_getElem hk', hsame] at hword
  exact hword rfl

theorem mixed_ne_of_existsUnique (hsize : first.size = second.size)
    (hone : ∃! k : Nat, first.entropy[k]? ≠ second.entropy[k]?) :
    first.mixed hn ≠ second.mixed hn := by
  obtain ⟨k, hword, honly⟩ := hone
  have hk : k < first.size := by
    by_contra hge
    have hfirst : first.entropy.length ≤ k := Nat.not_lt.1 hge
    have hsecond : second.entropy.length ≤ k := Nat.le_trans (Nat.le_of_eq hsize.symm) hfirst
    apply hword
    rw [List.getElem?_eq_none hfirst, List.getElem?_eq_none hsecond]
  refine mixed_ne hsize hk (addend_succ_ne hsize hk hword) fun other hother => ?_
  cases other with
  | zero => exact congrArg UInt32.ofNat hsize
  | succ other =>
      apply addend_succ_eq
      by_contra hdiffer
      exact hother (congrArg (· + 1) (honly other hdiffer))

end

/-! ### Checked indices -/

def addend? (mixer : SeedMixer) (n k : Nat) : Option UInt32 :=
  if k = 0 then some (UInt32.ofNat mixer.size)
  else if k ≤ mixer.size then do
    let word ← mixer.entropy[k - 1]?
    return UInt32.ofNat (k % n) + word
  else some (UInt32.ofNat (k % n))

def added? (mixer : SeedMixer) (n : Nat) : Nat → Option (Vector UInt32 n)
  | 0 => some (Vector.replicate n fill)
  | count + 1 => do
      let buffer ← mixer.added? n count
      adding.step? (fun word => (mixer.addend? n count).map (word + ·)) count buffer

def xored? (start : Nat) (buffer : Vector UInt32 n) : Nat → Option (Vector UInt32 n)
  | 0 => some buffer
  | count + 1 => do
      let buffer ← xored? start buffer count
      xoring.step? (fun word => some (word - UInt32.ofNat ((start + count) % n))) (start + count)
        buffer

def words? (mixer : SeedMixer) (n : Nat) : Option (Vector UInt32 n) := do
  let steps := mixer.addSteps n
  let buffer ← if n = 0 then some (Vector.replicate n fill) else mixer.added? n steps
  xored? steps buffer n

theorem addend?_eq (mixer : SeedMixer) (n k : Nat) :
    mixer.addend? n k = some (mixer.addend n k) := by
  cases k with
  | zero => rfl
  | succ k =>
      rw [addend?, if_neg (Nat.succ_ne_zero k), addend_succ, Nat.add_sub_cancel]
      split_ifs with hk
      · rw [List.getElem?_eq_getElem hk]
        rfl
      · rw [List.getElem?_eq_none (Nat.le_of_lt_succ (Nat.not_le.1 hk)), Option.getD_none,
          UInt32.add_zero]

theorem added?_eq (mixer : SeedMixer) (hn : 0 < n) (count : Nat) :
    mixer.added? n count = some (mixer.added hn count) := by
  induction count with
  | zero => rfl
  | succ count ih =>
      have hvary : ∀ word, (mixer.addend? n count).map (word + ·) =
          some (word + mixer.addend n count) := by
        intro word
        rw [addend?_eq, Option.map_some]
      rw [added?, ih, Option.bind_eq_bind, Option.bind_some, adding.step?_eq hvary hn,
        added_succ, addStep_eq]

theorem xored?_eq (hn : 0 < n) (start : Nat) (buffer : Vector UInt32 n) (count : Nat) :
    xored? start buffer count = some (xored hn start buffer count) := by
  induction count with
  | zero => rfl
  | succ count ih =>
      rw [xored?, ih, Option.bind_eq_bind, Option.bind_some,
        xoring.step?_eq (fun _ => rfl) hn, xored_succ, xorStep_eq]

theorem words?_eq (mixer : SeedMixer) (n : Nat) : mixer.words? n = some (mixer.words n) := by
  cases n with
  | zero => rfl
  | succ n =>
      rw [words?, if_neg (Nat.succ_ne_zero n), mixer.added?_eq n.succ_pos, Option.bind_eq_bind,
        Option.bind_some]
      exact xored?_eq n.succ_pos _ _ _

/-- **Every word of the entropy matters.** Mixers whose entropy differs in exactly one word answer
no request for at least one word alike, and no index leaves the buffer or the entropy. -/
theorem every_entropy_word_matters :
    (∀ {first second : SeedMixer}, first.size = second.size →
        (∃! k : Nat, first.entropy[k]? ≠ second.entropy[k]?) → ∀ {count : Nat}, 0 < count →
        (SeedSource.generate count first).1 ≠ (SeedSource.generate count second).1) ∧
      ∀ (mixer : SeedMixer) (count : Nat),
        mixer.words? count = some (SeedSource.generate count mixer).1 := by
  refine ⟨?_, fun mixer count => words?_eq mixer count⟩
  intro first second hsize hone count hcount
  obtain ⟨n, rfl⟩ := Nat.exists_eq_add_one_of_ne_zero (Nat.ne_of_gt hcount)
  exact mixed_ne_of_existsUnique hsize hone

/-- The third of three words, in a buffer of two places. -/
theorem every_entropy_word_matters_two_places :
    let first : SeedMixer := ⟨[10, 20, 30]⟩
    let second : SeedMixer := ⟨[10, 20, 31]⟩
    first.size = second.size ∧ (∃! k : Nat, first.entropy[k]? ≠ second.entropy[k]?) ∧ 0 < 2 ∧
      (SeedSource.generate 2 first).1 ≠ (SeedSource.generate 2 second).1 := by
  intro first second
  have hsize : first.size = second.size := rfl
  have hone : ∃! k : Nat, first.entropy[k]? ≠ second.entropy[k]? := by
    refine ⟨2, by decide, fun k hdiffer => ?_⟩
    match k with
    | 0 => exact absurd rfl hdiffer
    | 1 => exact absurd rfl hdiffer
    | 2 => rfl
    | k + 3 => exact absurd rfl hdiffer
  have hpos : 0 < 2 := Nat.two_pos
  exact ⟨hsize, hone, hpos, every_entropy_word_matters.1 hsize hone hpos⟩

end Keystream.SeedMixer
