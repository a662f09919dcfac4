import OperatingSystems.Life.Neighbors

/-!
# The reads of a neighbor count

Every test of `getNumberOfNeighbors` is a conjunction whose first operand reads
`before`, and its guards come after. Since `&&` evaluates from left to right, all
eight neighbors are read whatever the guards say: next to the edge of the array
some of these reads are outside of it.
-/

namespace OperatingSystems

namespace Life

/-- An operand of a test: a comparison of a cell of `before` with zero, or a
guard. -/
inductive Operand
  | nonzero (line column : ℤ)
  | guard (b : Bool)

/-- The value of a conjunction and the cells read for it, in order. -/
def evalAnd (before : Grid) : List Operand → Bool × List (ℤ × ℤ)
  | [] => (true, [])
  | .nonzero line column :: operands =>
      if cell before line column ≠ 0 then
        ((evalAnd before operands).1, (line, column) :: (evalAnd before operands).2)
      else (false, [(line, column)])
  | .guard b :: operands => if b then evalAnd before operands else (false, [])

/-- The operands of the `k`-th test, as they stand. -/
def operands (lineSize columnSize : ℕ) (line column : ℤ) : ℕ → List Operand
  | 0 => [.nonzero (line - 1) (column - 1), .guard (line - 1 ≥ 0), .guard (column - 1 ≥ 0)]
  | 1 => [.nonzero (line - 1) column, .guard (line - 1 ≥ 0)]
  | 2 => [.nonzero (line - 1) (column + 1), .guard (line - 1 ≥ 0),
      .guard (column + 1 ≤ columnSize)]
  | 3 => [.nonzero line (column - 1), .guard (column - 1 ≥ 0)]
  | 4 => [.nonzero line (column + 1), .guard (column + 1 ≤ columnSize)]
  | 5 => [.nonzero (line + 1) (column - 1), .guard (line + 1 ≤ lineSize),
      .guard (column - 1 ≥ 0)]
  | 6 => [.nonzero (line + 1) column, .guard (line + 1 ≤ lineSize)]
  | 7 => [.nonzero (line + 1) (column + 1), .guard (line + 1 ≤ lineSize),
      .guard (column + 1 ≤ columnSize)]
  | _ => [.guard false]

/-- The elements of `before` that the evaluation of `getNumberOfNeighbors` reads. -/
def neighborReads (lineSize columnSize : ℕ) (before : Grid) (line column : ℤ) : List (ℤ × ℤ) :=
  (List.range 8).flatMap fun k =>
    (evalAnd before (operands lineSize columnSize line column k)).2

/-- `before[line][column]` is an element of the array. -/
def InArray (p : ℤ × ℤ) : Prop :=
  (0 ≤ p.1 ∧ p.1 ≤ 39) ∧ 0 ≤ p.2 ∧ p.2 ≤ 39

instance (p : ℤ × ℤ) : Decidable (InArray p) :=
  inferInstanceAs (Decidable (_ ∧ _))

section Eval

variable {lineSize columnSize : ℕ} {line column : ℤ}

/-- Guards read nothing. -/
theorem evalAnd_guards (before : Grid) (bs : List Bool) :
    evalAnd before (bs.map .guard) = (bs.all id, []) := by
  induction bs with
  | nil => rfl
  | cons b bs ih =>
      rw [List.map_cons, evalAnd, ih]
      cases b <;> rfl

/-- A conjunction that begins with a comparison reads its cell, and nothing else
if guards follow. -/
theorem evalAnd_nonzero (before : Grid) (line column : ℤ) (bs : List Bool) :
    evalAnd before (.nonzero line column :: bs.map .guard) =
      (cell before line column ≠ 0 && bs.all id, [(line, column)]) := by
  rw [evalAnd, evalAnd_guards]
  by_cases h : cell before line column = 0
  · simp [h]
  · simp [h]

/-- Every test compares its neighbor with zero before any guard. -/
theorem operands_eq (before : Grid) {k : ℕ} (hk : k < offsets.length) :
    ∃ bs : List Bool,
      operands lineSize columnSize line column k =
        .nonzero (line + offsets[k].1) (column + offsets[k].2) :: bs.map .guard ∧
      neighborTest lineSize columnSize before line column k =
        (cell before (line + offsets[k].1) (column + offsets[k].2) ≠ 0 && bs.all id) := by
  have hk' : k < 8 := hk
  have hall : ∀ b c : Bool, [b, c].all id = (b && c) ∧ [b].all id = b := by decide
  interval_cases k <;>
    simp only [operands, neighborTest, offsets, List.getElem_cons_zero, List.getElem_cons_succ,
      add_zero, ← sub_eq_add_neg, Bool.and_assoc]
  all_goals
    first
      | exact ⟨[_, _], rfl, congrArg _ (hall _ _).1.symm⟩
      | exact ⟨[_], rfl, congrArg _ (hall _ false).2.symm⟩

/-- The tests are those of the neighbor count, and each of them reads the cell of
its neighbor. -/
theorem evalAnd_operands (before : Grid) {k : ℕ} (hk : k < offsets.length) :
    evalAnd before (operands lineSize columnSize line column k) =
      (neighborTest lineSize columnSize before line column k,
        [(line + offsets[k].1, column + offsets[k].2)]) := by
  obtain ⟨bs, hoperands, htest⟩ := operands_eq before hk
  rw [hoperands, htest, evalAnd_nonzero]

/-- All eight neighbors are read. -/
theorem neighborReads_eq (lineSize columnSize : ℕ) (before : Grid) (line column : ℤ) :
    neighborReads lineSize columnSize before line column =
      offsets.map fun d => (line + d.1, column + d.2) := by
  have hread : ∀ k ∈ List.range 8,
      (evalAnd before (operands lineSize columnSize line column k)).2 =
        [(line + (offsets.getD k 0).1, column + (offsets.getD k 0).2)] := by
    intro k hk
    have hlt : k < offsets.length := List.mem_range.mp hk
    rw [evalAnd_operands before hlt, List.getD_eq_getElem?_getD, List.getElem?_eq_getElem hlt,
      Option.getD_some]
  rw [neighborReads, List.flatMap_congr hread]
  rfl

end Eval

/-- The reads of a neighbor count stay inside the array just at the cells that
are not at its edge. -/
theorem neighborReads_inArray_iff (lineSize columnSize : ℕ) (before : Grid) (line column : ℤ) :
    (∀ p ∈ neighborReads lineSize columnSize before line column, InArray p) ↔
      (1 ≤ line ∧ line ≤ 38) ∧ 1 ≤ column ∧ column ≤ 38 := by
  rw [neighborReads_eq, List.forall_mem_map]
  constructor
  · intro h
    have hfirst := h (-1, -1) (by decide)
    have hlast := h (1, 1) (by decide)
    unfold InArray at hfirst hlast
    omega
  · intro h d hd
    have hsmall : (-1 ≤ d.1 ∧ d.1 ≤ 1) ∧ -1 ≤ d.2 ∧ d.2 ≤ 1 := by
      revert d
      decide
    unfold InArray
    dsimp only
    omega

/-- The count of the first cell of a board reads `before[-1][-1]`. -/
theorem neighborReads_corner :
    ¬ ∀ p ∈ neighborReads 1 1 (fun _ => 0) 0 0, InArray p := by
  decide

end Life

end OperatingSystems
