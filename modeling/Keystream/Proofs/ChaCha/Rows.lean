import Keystream.ChaCha.Rows
import Keystream.Proofs.ChaCha.Quartets

/-!
# Rounds by rows are rounds by words

Lane `k` of a block held as rows is its column `k`, and after the lower rows have been turned by
one, two and three lanes it is the diagonal that starts at the top of column `k`. A quarter round on
rows is the quarter round on every lane. So each half of a double round does the same in both
layouts, and turning the rows back loses nothing.
-/

namespace Keystream.ChaCha

/-! ### Rows -/

namespace Row

variable {x y : Row}

theorem ext_get (hget : ∀ k : Fin 4, x.get k = y.get k) : x = y :=
  Vector.ext fun k hk => hget ⟨k, hk⟩

theorem get_add (x y : Row) (k : Fin 4) : (x.add y).get k = x.get k + y.get k := by
  change (Vector.zipWith (· + ·) x y)[k.val] = x[k.val] + y[k.val]
  rw [Vector.getElem_zipWith]

theorem get_xorRotate (x y : Row) (count : UInt32) (k : Fin 4) :
    (x.xorRotate y count).get k = rotateLeft (x.get k ^^^ y.get k) count := by
  change (Vector.zipWith (fun a b => rotateLeft (a ^^^ b) count) x y)[k.val] =
    rotateLeft (x[k.val] ^^^ y[k.val]) count
  rw [Vector.getElem_zipWith]

theorem get_turn (x : Row) (count : Nat) (k : Fin 4) :
    (x.turn count).get k = x.get ⟨(k.val + count) % 4, Nat.mod_lt _ (by decide)⟩ := by
  change (Vector.ofFn fun lane : Fin 4 => x[(lane.val + count) % 4])[k.val] = x[(k.val + count) % 4]
  rw [Vector.getElem_ofFn]

theorem turn_turn (x : Row) {count more : Nat} (haround : (count + more) % 4 = 0) :
    (x.turn count).turn more = x := by
  apply ext_get
  intro k
  rw [get_turn, get_turn]
  congr 1
  apply Fin.ext
  change ((k.val + more) % 4 + count) % 4 = k.val
  omega

end Row

namespace Rows

theorem get_rowOf (block : Block) (row k : Fin 4) :
    (rowOf block row).get k = block.get (Quartet.place row.val k.val) := by
  have hplace : (Quartet.place row.val k.val).val = 4 * row.val + k.val := by
    simp only [Quartet.place, Nat.mod_eq_of_lt row.isLt, Nat.mod_eq_of_lt k.isLt]
  change (Vector.ofFn fun lane : Fin 4 => block[4 * row.val + lane.val])[k.val] =
    block[(Quartet.place row.val k.val).val]
  simp only [Vector.getElem_ofFn, hplace]

theorem toBlock_ofBlock (block : Block) : (ofBlock block).toBlock = block := by
  apply Vector.ext
  intro place hplace
  change (rowOf block 0 ++ rowOf block 1 ++ rowOf block 2 ++ rowOf block 3)[place] = block[place]
  simp only [Vector.getElem_append, rowOf, Vector.getElem_ofFn]
  split_ifs
  all_goals
    congr 1
    omega

/-! ### Lanes -/

def lane (rows : Rows) (k : Fin 4) : Quad :=
  (rows.a.get k, rows.b.get k, rows.c.get k, rows.d.get k)

theorem ext_lane {rows others : Rows} (hlane : ∀ k, rows.lane k = others.lane k) :
    rows = others := by
  obtain ⟨a, b, c, d⟩ := rows
  obtain ⟨a', b', c', d'⟩ := others
  simp only [lane, Prod.mk.injEq] at hlane
  rw [Row.ext_get fun k => (hlane k).1, Row.ext_get fun k => (hlane k).2.1,
    Row.ext_get fun k => (hlane k).2.2.1, Row.ext_get fun k => (hlane k).2.2.2]

theorem lane_quarterRound (rows : Rows) (k : Fin 4) :
    rows.quarterRound.lane k = (rows.lane k).quarterRound := by
  simp only [lane, quarterRound, Row.get_add, Row.get_xorRotate, Quad.quarterRound,
    ChaCha.quarterRound]

theorem lane_ofBlock (block : Block) (k : Fin 4) :
    (ofBlock block).lane k = (Quartet.column k).read block := by
  simp only [lane, ofBlock, get_rowOf, Quartet.read, Quartet.column, Quartet.across]
  rfl

theorem lane_turn_ofBlock (block : Block) (k : Fin 4) :
    ((ofBlock block).turn 1 2 3).lane k = (Quartet.diagonal k).read block := by
  simp only [lane, turn, ofBlock, Row.get_turn, get_rowOf, Quartet.place_mod, Quartet.read,
    Quartet.diagonal, Quartet.across]
  rfl

theorem turn_turn (rows : Rows) : (rows.turn 1 2 3).turn 3 2 1 = rows := by
  simp (disch := decide) only [turn, Row.turn_turn]

/-! ### The rounds -/

theorem ofBlock_columnRound (block : Block) :
    ofBlock (columnRound block) = (ofBlock block).quarterRound := by
  apply ext_lane
  intro k
  rw [lane_ofBlock, lane_quarterRound, lane_ofBlock, read_columnRound]

/-- A diagonal round is the quarter round on the turned rows. -/
theorem ofBlock_diagonalRound (block : Block) :
    ofBlock (diagonalRound block) = ((ofBlock block).turn 1 2 3).quarterRound.turn 3 2 1 := by
  have hturned : (ofBlock (diagonalRound block)).turn 1 2 3 =
      ((ofBlock block).turn 1 2 3).quarterRound := by
    apply ext_lane
    intro k
    rw [lane_turn_ofBlock, lane_quarterRound, lane_turn_ofBlock, read_diagonalRound]
  rw [← hturned, turn_turn]

theorem doubleRounds_ofBlock (count : Nat) (block : Block) :
    Rows.doubleRounds count (ofBlock block) = ofBlock (ChaCha.doubleRounds count block) := by
  induction count generalizing block with
  | zero => rfl
  | succ count ih =>
      rw [Rows.doubleRounds, ChaCha.doubleRounds, doubleRound, ← ofBlock_columnRound,
        ← ofBlock_diagonalRound, ih]

end Rows

theorem rowDoubleRounds_eq (count : Nat) : rowDoubleRounds count = doubleRounds count := by
  funext block
  rw [rowDoubleRounds, Rows.doubleRounds_ofBlock, Rows.toBlock_ofBlock]

/-- **Both layouts run the same rounds.** The rounds by rows give each word of the rounds by words,
for every block and every number of double rounds. -/
theorem rowDoubleRounds_eq_doubleRounds (count : Nat) (block : Block) :
    (∀ place : Fin 16,
      (rowDoubleRounds count block).get place = (doubleRounds count block).get place) ∧
      ∀ layout : Layout, layout.doubleRounds count block = doubleRounds count block := by
  refine ⟨?_, ?_⟩
  · intro place
    rw [rowDoubleRounds_eq]
  · intro layout
    cases layout with
    | byWords => rfl
    | byRows => exact congrFun (rowDoubleRounds_eq count) block

end Keystream.ChaCha
