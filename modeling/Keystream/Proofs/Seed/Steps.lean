import Keystream.Proofs.Counting
import Keystream.Proofs.Swap
import Keystream.Proofs.Word
import Keystream.Seed.Mixer

/-!
# Steps of the entropy mixer

Both passes of the mixer take steps of one kind. A step makes a word of the three places it reads,
puts it and a variant of it on two places, and leaves the variant where it stands. All else that the
two passes do differently is how words are put together. The step writes over the place it stands
on, and yet nothing is lost: the variant tells what was put on the other places, so these can be
told, and with two of the words that were read the third one can be told too. In a buffer of a
single place all three are the same word.

The indices count around the buffer, so each of them is one of its places. The checked form of a
step has no result as soon as one is not.
-/

namespace Keystream.SeedMixer

open Function

/-- How a pass puts words together. -/
structure Mixing where
  combine : UInt32 → UInt32 → UInt32 → UInt32
  multiplier : UInt32
  join : UInt32 → UInt32 → UInt32

namespace Mixing

def adding : Mixing :=
  ⟨fun x y z => x ^^^ y ^^^ z, addMultiplier, fun x word => x + word⟩

def xoring : Mixing :=
  ⟨fun x y z => x + y + z, xorMultiplier, fun x word => x ^^^ word⟩

variable (m : Mixing) {n : Nat}

def scramble (x y z : UInt32) : UInt32 :=
  m.multiplier * temper (m.combine x y z)

def joinAt (place : Fin n) (word : UInt32) (buffer : Vector UInt32 n) : Vector UInt32 n :=
  buffer.set place.val (m.join (buffer.get place) word) place.isLt

/-- Puts a word on the near place and its variant on the far one, and leaves the variant here. -/
def spread (here near far : Fin n) (word variant : UInt32) (buffer : Vector UInt32 n) :
    Vector UInt32 n :=
  (m.joinAt far variant (m.joinAt near word buffer)).set here.val variant here.isLt

def wordAt (hn : 0 < n) (k : Nat) (buffer : Vector UInt32 n) : UInt32 :=
  m.scramble (buffer.get (place hn k)) (buffer.get (place hn (k + near n)))
    (buffer.get (place hn (k + n - 1)))

def step (vary : UInt32 → UInt32) (hn : 0 < n) (k : Nat) (buffer : Vector UInt32 n) :
    Vector UInt32 n :=
  let word := m.wordAt hn k buffer
  m.spread (place hn k) (place hn (k + near n)) (place hn (k + far n)) word (vary word) buffer

end Mixing

section

variable {n : Nat} (mixer : SeedMixer) (hn : 0 < n) (k : Nat) (buffer : Vector UInt32 n)

theorem addStep_eq :
    mixer.addStep hn k buffer = Mixing.adding.step (· + mixer.addend n k) hn k buffer := rfl

theorem xorStep_eq :
    xorStep hn k buffer = Mixing.xoring.step (· - UInt32.ofNat (k % n)) hn k buffer := rfl

end

/-! ### The places of a step -/

section

variable {n : Nat}

theorem gap_le (htwo : 2 ≤ n) : gap n + 2 ≤ n := by
  unfold gap
  split_ifs <;> omega

theorem near_pos (htwo : 2 ≤ n) : 0 < near n := by
  have hgap := gap_le htwo
  unfold near
  omega

theorem near_lt (htwo : 2 ≤ n) : near n < n := by
  unfold near
  omega

theorem place_add_ne (hn : 0 < n) (k : Nat) {distance : Nat} (hpos : 0 < distance)
    (hlt : distance < n) : place hn (k + distance) ≠ place hn k := by
  intro hsame
  exact mod_ne_add_mod k hpos hlt (congrArg Fin.val hsame).symm

end

/-! ### Nothing is lost -/

theorem injective_temper : Injective temper :=
  Word.injective_xor_shiftRight32 (by decide) (by decide)

namespace Mixing

/-- What a pass needs so that its steps lose nothing. -/
structure Lossless (m : Mixing) : Prop where
  combine_left : ∀ y z, Injective fun x => m.combine x y z
  combine_same : Injective fun x => m.combine x x x
  odd : Odd m.multiplier.toNat
  join_left : ∀ word, Injective fun x => m.join x word

theorem lossless_adding : adding.Lossless where
  combine_left y z x x' hsame := (UInt32.xor_left_inj y).1 ((UInt32.xor_left_inj z).1 hsame)
  combine_same x x' hsame := by
    simpa [adding] using hsame
  odd := by decide
  join_left word x x' hsame := (UInt32.add_left_inj word).1 hsame

theorem lossless_xoring : xoring.Lossless where
  combine_left y z x x' hsame := (UInt32.add_left_inj y).1 ((UInt32.add_left_inj z).1 hsame)
  combine_same x x' hsame := by
    have hthree : ∀ x : UInt32, x + x + x = x * 3 := by
      intro x
      have hsum : (3 : UInt32) = 1 + 1 + 1 := rfl
      rw [hsum, UInt32.mul_add, UInt32.mul_add, UInt32.mul_one]
    simp only [xoring, hthree] at hsame
    exact Word.injective_mul_odd32 (by decide) hsame
  odd := by decide
  join_left word x x' hsame := (UInt32.xor_left_inj word).1 hsame

variable {m : Mixing} {n : Nat} {first second : Vector UInt32 n}

theorem Lossless.combine_eq (hm : m.Lossless) {x y z x' y' z' : UInt32}
    (hsame : m.scramble x y z = m.scramble x' y' z') : m.combine x y z = m.combine x' y' z' := by
  rw [scramble, scramble, UInt32.mul_comm, UInt32.mul_comm m.multiplier] at hsame
  exact injective_temper (Word.injective_mul_odd32 hm.odd hsame)

/-- Two buffers hold the same words on all places but one. -/
def AgreeOff (here : Fin n) (first second : Vector UInt32 n) : Prop :=
  ∀ place : Fin n, place ≠ here → first.get place = second.get place

theorem get_joinAt (place other : Fin n) (word : UInt32) (buffer : Vector UInt32 n) :
    (m.joinAt place word buffer).get other =
      if place = other then m.join (buffer.get other) word else buffer.get other := by
  rw [joinAt, get_set]
  split_ifs with hsame
  · subst hsame
    rfl
  · rfl

theorem Lossless.agreeOff_of_joinAt (hm : m.Lossless) {here place : Fin n} {word : UInt32}
    (hjoined : AgreeOff here (m.joinAt place word first) (m.joinAt place word second)) :
    AgreeOff here first second := by
  intro other hother
  have hget := hjoined other hother
  rw [get_joinAt, get_joinAt] at hget
  split_ifs at hget with hplace
  · exact hm.join_left word hget
  · exact hget

theorem get_spread_here (here near far : Fin n) (word variant : UInt32)
    (buffer : Vector UInt32 n) :
    (m.spread here near far word variant buffer).get here = variant := by
  rw [spread, get_set, if_pos rfl]

theorem Lossless.agreeOff_of_spread (hm : m.Lossless) {here near far : Fin n}
    {word variant : UInt32}
    (hspread : m.spread here near far word variant first =
      m.spread here near far word variant second) : AgreeOff here first second := by
  have hjoined : AgreeOff here (m.joinAt far variant (m.joinAt near word first))
      (m.joinAt far variant (m.joinAt near word second)) := by
    intro place hplace
    have hget := congrArg (Vector.get · place) hspread
    simp only [spread, get_set, if_neg (Ne.symm hplace)] at hget
    exact hget
  exact hm.agreeOff_of_joinAt (hm.agreeOff_of_joinAt hjoined)

theorem get_step_here (vary : UInt32 → UInt32) (hn : 0 < n) (k : Nat)
    (buffer : Vector UInt32 n) :
    (m.step vary hn k buffer).get (place hn k) = vary (m.wordAt hn k buffer) :=
  get_spread_here _ _ _ _ _ buffer

theorem eq_of_agreeOff {here : Fin n} (hoff : AgreeOff here first second)
    (hhere : first.get here = second.get here) : first = second := by
  apply Vector.ext
  intro i hi
  have hget : first.get ⟨i, hi⟩ = second.get ⟨i, hi⟩ := by
    by_cases hplace : (⟨i, hi⟩ : Fin n) = here
    · rw [hplace, hhere]
    · exact hoff ⟨i, hi⟩ hplace
  exact hget

theorem Lossless.injective_step (hm : m.Lossless) {vary : UInt32 → UInt32}
    (hvary : Injective vary) (hn : 0 < n) (k : Nat) : Injective (m.step vary hn k) := by
  intro first second hsame
  have hvariant := congrArg (Vector.get · (place hn k)) hsame
  simp only [get_step_here] at hvariant
  have hword := hvary hvariant
  have hoff : AgreeOff (place hn k) first second := by
    simp only [step, hword] at hsame
    exact hm.agreeOff_of_spread hsame
  have hcombined := hm.combine_eq hword
  apply eq_of_agreeOff hoff
  rcases Nat.lt_or_ge n 2 with hone | htwo
  · -- the only place is read three times
    obtain rfl : n = 1 := by omega
    have honly : ∀ place other : Fin 1, place = other := fun place other => Subsingleton.elim _ _
    rw [honly (place hn (k + near 1)) (place hn k), honly (place hn (k + 1 - 1)) (place hn k)]
      at hcombined
    exact hm.combine_same hcombined
  · have hnear := hoff _ (place_add_ne hn k (near_pos htwo) (near_lt htwo))
    have hbehind := hoff (place hn (k + n - 1)) (by
      rw [Nat.add_sub_assoc hn]
      exact place_add_ne hn k (by omega) (by omega))
    rw [hnear, hbehind] at hcombined
    exact hm.combine_left _ _ hcombined

end Mixing

/-! ### Checked indices -/

section

variable {n : Nat}

def setAt? (index : Nat) (word : UInt32) (buffer : Vector UInt32 n) : Option (Vector UInt32 n) :=
  if h : index < n then some (buffer.set index word h) else none

theorem setAt?_eq (place : Fin n) (word : UInt32) (buffer : Vector UInt32 n) :
    setAt? place word buffer = some (buffer.set place.val word place.isLt) :=
  dif_pos place.isLt

theorem getElem?_eq (place : Fin n) (buffer : Vector UInt32 n) :
    buffer[place.val]? = some (buffer.get place) :=
  Vector.getElem?_eq_getElem place.isLt

namespace Mixing

variable (m : Mixing)

def joinAt? (index : Nat) (word : UInt32) (buffer : Vector UInt32 n) :
    Option (Vector UInt32 n) := do
  let held ← buffer[index]?
  setAt? index (m.join held word) buffer

def step? (vary? : UInt32 → Option UInt32) (k : Nat) (buffer : Vector UInt32 n) :
    Option (Vector UInt32 n) := do
  let here ← buffer[k % n]?
  let near ← buffer[(k + near n) % n]?
  let behind ← buffer[(k + n - 1) % n]?
  let word := m.scramble here near behind
  let variant ← vary? word
  let joined ← m.joinAt? ((k + SeedMixer.near n) % n) word buffer
  let joined ← m.joinAt? ((k + far n) % n) variant joined
  setAt? (k % n) variant joined

theorem joinAt?_eq (place : Fin n) (word : UInt32) (buffer : Vector UInt32 n) :
    m.joinAt? place word buffer = some (m.joinAt place word buffer) := by
  rw [joinAt?, getElem?_eq, Option.bind_eq_bind, Option.bind_some]
  exact setAt?_eq place _ buffer

theorem step?_eq {vary? : UInt32 → Option UInt32} {vary : UInt32 → UInt32}
    (hvary : ∀ word, vary? word = some (vary word)) (hn : 0 < n) (k : Nat)
    (buffer : Vector UInt32 n) :
    m.step? vary? k buffer = some (m.step vary hn k buffer) := by
  have hhere : buffer[k % n]? = _ := getElem?_eq (place hn k) buffer
  have hnear : buffer[(k + near n) % n]? = _ := getElem?_eq (place hn (k + near n)) buffer
  have hbehind : buffer[(k + n - 1) % n]? = _ := getElem?_eq (place hn (k + n - 1)) buffer
  have hjoined : ∀ word, m.joinAt? ((k + near n) % n) word buffer = _ := fun word =>
    m.joinAt?_eq (place hn (k + near n)) word buffer
  have hboth : ∀ variant joined, m.joinAt? ((k + far n) % n) variant joined = _ :=
    m.joinAt?_eq (place hn (k + far n))
  have hlast : ∀ variant joined, setAt? (k % n) variant joined = _ := setAt?_eq (place hn k)
  simp only [step?, hhere, hnear, hbehind, hvary, hjoined, hboth, hlast, Option.bind_eq_bind,
    Option.bind_some]
  rfl

end Mixing

end

end Keystream.SeedMixer
