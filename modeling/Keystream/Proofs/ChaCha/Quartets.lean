import Keystream.ChaCha.Rounds
import Keystream.Proofs.Swap
import Mathlib.Data.List.Nodup
import Mathlib.Data.List.OfFn

/-!
# Quarter rounds on quartets of places

A quarter round works on a quartet of four different places of a block and leaves all others as they
are. Quarter rounds on quartets that have no place in common therefore do not see each other: after
all of them each quartet holds the quarter round of what it held at first. The columns of a block
are four such quartets, and so are its diagonals.
-/

namespace Keystream.ChaCha

abbrev Quad : Type :=
  UInt32 × UInt32 × UInt32 × UInt32

def Quad.quarterRound : Quad → Quad
  | (a, b, c, d) => ChaCha.quarterRound a b c d

structure Quartet where
  a : Fin 16
  b : Fin 16
  c : Fin 16
  d : Fin 16
  distinct : [a, b, c, d].Nodup

namespace Quartet

variable {g h : Quartet}

def places (g : Quartet) : List (Fin 16) :=
  [g.a, g.b, g.c, g.d]

def read (g : Quartet) (block : Block) : Quad :=
  (block.get g.a, block.get g.b, block.get g.c, block.get g.d)

def write (g : Quartet) (words : Quad) (block : Block) : Block :=
  (((block.set g.a.val words.1 g.a.isLt).set g.b.val words.2.1 g.b.isLt).set g.c.val words.2.2.1
    g.c.isLt).set g.d.val words.2.2.2 g.d.isLt

def run (g : Quartet) (block : Block) : Block :=
  quarterRoundAt g.a g.b g.c g.d block

def runAll : List Quartet → Block → Block
  | [], block => block
  | g :: later, block => runAll later (g.run block)

/-! ### One quartet -/

theorem get_write_of_not_mem {place : Fin 16} (hplace : place ∉ g.places) (words : Quad)
    (block : Block) : (g.write words block).get place = block.get place := by
  simp only [places, List.mem_cons, List.not_mem_nil, or_false, not_or] at hplace
  obtain ⟨ha, hb, hc, hd⟩ := hplace
  simp only [write, get_set, Ne.symm ha, Ne.symm hb, Ne.symm hc, Ne.symm hd, if_false]

theorem read_write (g : Quartet) (words : Quad) (block : Block) :
    g.read (g.write words block) = words := by
  have hdistinct := g.distinct
  simp only [List.nodup_cons, List.mem_cons, List.not_mem_nil, or_false, not_or] at hdistinct
  obtain ⟨⟨hab, hac, had⟩, ⟨hbc, hbd⟩, hcd, -⟩ := hdistinct
  simp only [read, write, get_set, Ne.symm hab, Ne.symm hac, Ne.symm had, Ne.symm hbc, Ne.symm hbd,
    Ne.symm hcd, if_true, if_false]

theorem ext_read {block other : Block} (hread : g.read block = g.read other)
    (hrest : ∀ place ∉ g.places, block.get place = other.get place) : block = other := by
  simp only [read, Prod.mk.injEq] at hread
  have hplaces : ∀ place ∈ g.places, block.get place = other.get place := by
    simp only [places, List.forall_mem_cons]
    exact ⟨hread.1, hread.2.1, hread.2.2.1, hread.2.2.2, List.forall_mem_nil _⟩
  refine Vector.ext fun place hplace => ?_
  by_cases hmem : ⟨place, hplace⟩ ∈ g.places
  · exact hplaces _ hmem
  · exact hrest _ hmem

theorem run_eq (g : Quartet) (block : Block) :
    g.run block = g.write (g.read block).quarterRound block := rfl

theorem get_run_of_not_mem {place : Fin 16} (hplace : place ∉ g.places) (block : Block) :
    (g.run block).get place = block.get place := by
  rw [run_eq, get_write_of_not_mem hplace]

theorem read_run (g : Quartet) (block : Block) :
    g.read (g.run block) = (g.read block).quarterRound := by
  rw [run_eq, read_write]

theorem read_run_of_disjoint (hdisjoint : g.places.Disjoint h.places) (block : Block) :
    g.read (h.run block) = g.read block := by
  have hkept : ∀ place ∈ g.places, (h.run block).get place = block.get place := fun place hplace =>
    get_run_of_not_mem (hdisjoint hplace) block
  simp only [places, List.forall_mem_cons] at hkept
  obtain ⟨ha, hb, hc, hd, -⟩ := hkept
  rw [read, ha, hb, hc, hd, read]

/-! ### Quartets that share no place -/

/-- No two of the quartets have a place in common. -/
def Apart (quartets : List Quartet) : Prop :=
  quartets.Pairwise fun g h => g.places.Disjoint h.places

theorem read_runAll_of_disjoint {quartets : List Quartet}
    (hdisjoint : ∀ h ∈ quartets, g.places.Disjoint h.places) (block : Block) :
    g.read (runAll quartets block) = g.read block := by
  induction quartets generalizing block with
  | nil => rfl
  | cons h later ih =>
      obtain ⟨hfirst, hlater⟩ := List.forall_mem_cons.1 hdisjoint
      rw [runAll, ih hlater, read_run_of_disjoint hfirst]

/-- Each of the quartets ends up with the quarter round of the words it held at first. -/
theorem read_runAll {quartets : List Quartet} (hapart : Apart quartets) (hmem : g ∈ quartets)
    (block : Block) : g.read (runAll quartets block) = (g.read block).quarterRound := by
  induction quartets generalizing block with
  | nil => cases hmem
  | cons h later ih =>
      obtain ⟨hfirst, hlater⟩ := List.pairwise_cons.1 hapart
      rcases List.mem_cons.1 hmem with rfl | hmem
      · rw [runAll, read_runAll_of_disjoint hfirst, read_run]
      · rw [runAll, ih hlater hmem, read_run_of_disjoint (List.disjoint_comm.1 (hfirst g hmem))]

/-! ### Columns and diagonals -/

theorem place_lt (row column : Nat) : 4 * (row % 4) + column % 4 < 16 := by omega

/-- The place of a row in a column, both of which are counted around. -/
def place (row column : Nat) : Fin 16 :=
  ⟨4 * (row % 4) + column % 4, place_lt row column⟩

theorem row_eq_of_place_eq {row column row' column' : Nat}
    (heq : place row column = place row' column') : row % 4 = row' % 4 := by
  have hval : 4 * (row % 4) + column % 4 = 4 * (row' % 4) + column' % 4 := congrArg Fin.val heq
  omega

theorem place_mod (row column : Nat) : place row (column % 4) = place row column := by
  simp [place]

def across (a b c d : Nat) : Quartet where
  a := place 0 a
  b := place 1 b
  c := place 2 c
  d := place 3 d
  distinct := by
    simp only [List.nodup_cons, List.mem_cons, List.not_mem_nil, or_false, not_or,
      not_false_eq_true, List.nodup_nil, and_true]
    refine ⟨⟨?_, ?_, ?_⟩, ⟨?_, ?_⟩, ?_⟩ <;>
      exact fun heq => absurd (row_eq_of_place_eq heq) (by decide)

def column (k : Fin 4) : Quartet :=
  across k.val k.val k.val k.val

def diagonal (k : Fin 4) : Quartet :=
  across k.val (k.val + 1) (k.val + 2) (k.val + 3)

theorem apart_columns : Apart (List.ofFn column) := by
  refine List.pairwise_ofFn.2 ?_
  unfold List.Disjoint
  decide

theorem apart_diagonals : Apart (List.ofFn diagonal) := by
  refine List.pairwise_ofFn.2 ?_
  unfold List.Disjoint
  decide

end Quartet

theorem columnRound_eq (block : Block) :
    columnRound block = Quartet.runAll (List.ofFn Quartet.column) block := rfl

theorem diagonalRound_eq (block : Block) :
    diagonalRound block = Quartet.runAll (List.ofFn Quartet.diagonal) block := rfl

theorem read_columnRound (k : Fin 4) (block : Block) :
    (Quartet.column k).read (columnRound block) =
      ((Quartet.column k).read block).quarterRound := by
  rw [columnRound_eq]
  exact Quartet.read_runAll Quartet.apart_columns (List.mem_ofFn.2 ⟨k, rfl⟩) block

theorem read_diagonalRound (k : Fin 4) (block : Block) :
    (Quartet.diagonal k).read (diagonalRound block) =
      ((Quartet.diagonal k).read block).quarterRound := by
  rw [diagonalRound_eq]
  exact Quartet.read_runAll Quartet.apart_diagonals (List.mem_ofFn.2 ⟨k, rfl⟩) block

end Keystream.ChaCha
