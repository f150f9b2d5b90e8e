import Keystream.Engine

/-!
# The entropy mixer

A seed source over a short list of words. It spreads them over as many words as are asked for: a
buffer is filled with a constant, a first pass adds the entropy to it word by word, and a second
pass goes once more around. Each step of a pass reads three places of the buffer and writes three,
where places count modulo the buffer's size. The words depend on the entropy and the count alone,
so a request leaves the mixer as it is.
-/

namespace Keystream

structure SeedMixer where
  entropy : List UInt32
  deriving Repr, DecidableEq

namespace SeedMixer

def fill : UInt32 := 0x8b8b8b8b

def addMultiplier : UInt32 := 1664525

def xorMultiplier : UInt32 := 1566083941

def ofUInt64 (value : UInt64) : SeedMixer :=
  ⟨[value.toUInt32, (value >>> 32).toUInt32]⟩

def size (mixer : SeedMixer) : Nat :=
  mixer.entropy.length

/-- Folds the high bits of a word onto its low ones. -/
def temper (x : UInt32) : UInt32 :=
  x ^^^ (x >>> 27)

/-- The distance between the two far places that a step writes. -/
def gap (n : Nat) : Nat :=
  if 623 ≤ n then 11 else if 68 ≤ n then 7 else if 39 ≤ n then 5 else if 7 ≤ n then 3
  else (n - 1) / 2

/-- How far ahead of a step the nearer of these places lies. -/
def near (n : Nat) : Nat :=
  (n - gap n) / 2

/-- How far ahead of a step the farther of them lies. -/
def far (n : Nat) : Nat :=
  near n + gap n

section Passes

variable {n : Nat}

/-- Place number `k` of the buffer, counted around it. -/
def place (hn : 0 < n) (k : Nat) : Fin n :=
  ⟨k % n, Nat.mod_lt k hn⟩

/-- The size of the entropy, then its words, each with the number of its place, then that number
alone. -/
def addend (mixer : SeedMixer) (n k : Nat) : UInt32 :=
  match k with
  | 0 => UInt32.ofNat mixer.size
  | k + 1 => UInt32.ofNat ((k + 1) % n) + mixer.entropy.getD k 0

def addStep (mixer : SeedMixer) (hn : 0 < n) (k : Nat) (buffer : Vector UInt32 n) :
    Vector UInt32 n :=
  let here := place hn k
  let near := place hn (k + near n)
  let far := place hn (k + far n)
  let behind := place hn (k + n - 1)
  let r := addMultiplier * temper (buffer[here] ^^^ buffer[near] ^^^ buffer[behind])
  let r' := r + mixer.addend n k
  let buffer := buffer.set near (buffer[near] + r)
  let buffer := buffer.set far (buffer[far] + r')
  buffer.set here r'

def xorStep (hn : 0 < n) (k : Nat) (buffer : Vector UInt32 n) : Vector UInt32 n :=
  let here := place hn k
  let near := place hn (k + near n)
  let far := place hn (k + far n)
  let behind := place hn (k + n - 1)
  let r := xorMultiplier * temper (buffer[here] + buffer[near] + buffer[behind])
  let r' := r - UInt32.ofNat (k % n)
  let buffer := buffer.set near (buffer[near] ^^^ r)
  let buffer := buffer.set far (buffer[far] ^^^ r')
  buffer.set here r'

/-- The first pass reaches all the entropy and goes around at least once. -/
def addSteps (mixer : SeedMixer) (n : Nat) : Nat :=
  max (mixer.size + 1) n

def afterAdding (mixer : SeedMixer) (hn : 0 < n) : Vector UInt32 n :=
  Nat.fold (mixer.addSteps n) (fun k _ buffer => mixer.addStep hn k buffer)
    (Vector.replicate n fill)

/-- The second pass goes on where the first one ended. -/
def mixed (mixer : SeedMixer) (hn : 0 < n) : Vector UInt32 n :=
  Nat.fold n (fun k _ buffer => xorStep hn (mixer.addSteps n + k) buffer) (mixer.afterAdding hn)

end Passes

def words (mixer : SeedMixer) : (count : Nat) → Vector UInt32 count
  | 0 => #v[]
  | count + 1 => mixer.mixed count.succ_pos

instance : SeedSource SeedMixer where
  generate count mixer := (mixer.words count, mixer)

end SeedMixer

end Keystream
