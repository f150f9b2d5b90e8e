import Keystream.Proofs.Arc4.Valid

/-!
# Table accesses inside the table

The operations on a table are total: a place outside the table reads as zero and is not exchanged.
Here each of them stands a second time in a form that has no result as soon as one place it reads or
exchanges lies outside the table, or one key entry it reads outside the key. On a valid state the
checked form has a result, and the result is that of the total form, so no default value is ever
read and no exchange is ever left out.
-/

namespace Keystream.Arc4

namespace State

variable {e : Nat}

def entryAt? (s : State e) (place : Nat) : Option Nat :=
  s.table[place]?.map BitVec.toNat

def exchanged? (s : State e) (i j : Nat) : Option (Array (BitVec e)) :=
  if h : i < s.table.size ∧ j < s.table.size then some (s.table.swap i j h.1 h.2) else none

def stir? (key : Nat) (s : State e) : Option (State e) := do
  let i := (s.i + 1) % s.size
  let entry ← s.entryAt? i
  let j := (s.j + entry + key) % s.size
  let table ← s.exchanged? i j
  return ⟨i, j, table⟩

def step? (s : State e) : Option (Nat × State e) := do
  let s ← s.stir? 0
  let first ← s.entryAt? s.i
  let second ← s.entryAt? s.j
  let output ← s.entryAt? ((first + second) % s.size)
  return (output, s)

def advance? : Nat → State e → Option (State e)
  | 0, s => some s
  | count + 1, s => do
      let (_, s) ← s.step?
      advance? count s

def passed? (key : Array (BitVec e)) (s : State e) : Nat → Option (State e)
  | 0 => some { s with i := (s.i + s.size - 1) % s.size }
  | count + 1 => do
      let s ← s.passed? key count
      let entry ← key[count % key.size]?
      s.stir? entry.toNat

def schedule? (key : Array (BitVec e)) (s : State e) : Option (State e) := do
  let s ← s.passed? key s.size
  advance? discardedSteps { s with j := s.i }

def gather? {w : Nat} (bits : Nat) (hbits : 0 < bits) (shift : Nat) (word : BitVec w)
    (s : State e) : Option (BitVec w × State e) :=
  if shift < w then do
    let (chunk, s) ← s.step?
    gather? bits hbits (shift + bits) (Word.orShifted word chunk shift) s
  else
    some (word, s)
termination_by w - shift

theorem entryAt?_eq {s : State e} {place : Nat} (hplace : place < s.size) :
    s.entryAt? place = some (s.entryAt place) := by
  have hget : s.table[place]? = some s.table[place] := Array.getElem?_eq_getElem hplace
  have hgetD : s.table.getD place 0 = s.table[place] := by
    rw [Array.getD_eq_getD_getElem?, hget, Option.getD_some]
  rw [entryAt?, entryAt, hget, hgetD, Option.map_some]

theorem exchanged?_eq {s : State e} {i j : Nat} (hi : i < s.size) (hj : j < s.size) :
    s.exchanged? i j = some (s.table.swapIfInBounds i j) := by
  have hi' : i < s.table.size := hi
  have hj' : j < s.table.size := hj
  rw [exchanged?, dif_pos ⟨hi', hj'⟩, Array.swapIfInBounds, dif_pos hi', dif_pos hj']

namespace Valid

variable {s : State e}

theorem stir?_eq (hs : s.Valid) (key : Nat) : s.stir? key = some (s.stir key) := by
  have hi : (s.i + 1) % s.size < s.size := Nat.mod_lt _ hs.size_pos
  have hj : (s.j + s.entryAt ((s.i + 1) % s.size) + key) % s.size < s.size :=
    Nat.mod_lt _ hs.size_pos
  simp only [stir?, entryAt?_eq hi, exchanged?_eq hi hj, Option.bind_eq_bind, Option.bind_some,
    Option.pure_def]
  rfl

theorem step?_eq (hs : s.Valid) : s.step? = some s.step := by
  have hstirred := hs.stir 0
  have hsum : ((s.stir 0).entryAt (s.stir 0).i + (s.stir 0).entryAt (s.stir 0).j) %
      (s.stir 0).size < (s.stir 0).size := Nat.mod_lt _ hstirred.size_pos
  simp only [step?, hs.stir?_eq, entryAt?_eq hstirred.i_lt, entryAt?_eq hstirred.j_lt,
    entryAt?_eq hsum, Option.bind_eq_bind, Option.bind_some, Option.pure_def]
  rfl

theorem advance?_eq (hs : s.Valid) (count : Nat) : advance? count s = some (s.advance count) := by
  induction count generalizing s with
  | zero => rfl
  | succ count ih =>
      rw [advance?, hs.step?_eq, Option.bind_eq_bind, Option.bind_some]
      exact ih (hs.stir 0)

theorem passed?_eq (hs : s.Valid) {key : Array (BitVec e)} (hkey : 0 < key.size) (count : Nat) :
    s.passed? key count = some (s.passed key count) := by
  induction count with
  | zero => rfl
  | succ count ih =>
      have hplace : count % key.size < key.size := Nat.mod_lt _ hkey
      have hget : key[count % key.size]? = some key[count % key.size] :=
        Array.getElem?_eq_getElem hplace
      have hgetD : key.getD (count % key.size) 0 = key[count % key.size] := by
        rw [Array.getD_eq_getD_getElem?, hget, Option.getD_some]
      rw [passed?, ih, passed_succ, hget, hgetD]
      exact (hs.passed key count).stir?_eq _

theorem schedule?_eq (hs : s.Valid) {key : Array (BitVec e)} (hkey : 0 < key.size) :
    s.schedule? key = some (s.schedule key) := by
  rw [schedule?, hs.passed?_eq hkey, Option.bind_eq_bind, Option.bind_some, schedule_eq]
  exact (hs.passed key s.size).joined.advance?_eq discardedSteps

theorem gather?_eq (hs : s.Valid) {w bits shift : Nat} (hbits : 0 < bits) (word : BitVec w) :
    s.gather? bits hbits shift word = some (s.gather bits hbits shift word) := by
  fun_induction gather bits hbits shift word s with
  | case1 shift word s hshift chunk stepped hstep ih =>
      obtain ⟨rfl, rfl⟩ := Prod.mk.inj hstep
      rw [gather?, if_pos hshift, hs.step?_eq, Option.bind_eq_bind, Option.bind_some]
      exact ih (hs.stir 0)
  | case2 shift word s hshift => rw [gather?, if_neg hshift]

end Valid

end State

end Keystream.Arc4
