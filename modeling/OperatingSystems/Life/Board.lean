import Mathlib.Data.Int.Basic
import Mathlib.Logic.Function.Iterate
import Mathlib.Order.Bounds.Basic

/-!
# The board of the game of life

`before` and `after` are `int` arrays of 40 rows of 40 columns. A grid is the
memory seen from the first cell of such an array, so `matrix[line][column]` is
the cell at `line * 40 + column` whether or not that lies inside the array: the
column after the last one of a full row is the first cell of the next row.

`getNumberOfNeighbors` tests eight cells one after the other, and
`neighborCount k` is its counter after the first `k` tests. `generation`
replaces every cell of the board by the rule of `linesthread`.
-/

namespace OperatingSystems

namespace Life

/-- The memory from the first cell of `before` or `after` on, and before it. -/
abbrev Grid := ℤ → ℤ

/-- `MAXGRID`, the length of a row. -/
abbrev maxGrid : ℤ := 40

/-- The cells of an array. -/
abbrev gridSize : ℤ := maxGrid * maxGrid

/-- `matrix[line][column]`. -/
def cell (matrix : Grid) (line column : ℤ) : ℤ :=
  matrix (line * maxGrid + column)

/-- The grid after `matrix[line][column] = value`. -/
def store (matrix : Grid) (line column value : ℤ) : Grid :=
  Function.update matrix (line * maxGrid + column) value

/-- The condition of the `k`-th test of `getNumberOfNeighbors`. -/
def neighborTest (lineSize columnSize : ℕ) (before : Grid) (line column : ℤ) : ℕ → Bool
  | 0 => cell before (line - 1) (column - 1) ≠ 0 && line - 1 ≥ 0 && column - 1 ≥ 0
  | 1 => cell before (line - 1) column ≠ 0 && line - 1 ≥ 0
  | 2 => cell before (line - 1) (column + 1) ≠ 0 && line - 1 ≥ 0 && column + 1 ≤ columnSize
  | 3 => cell before line (column - 1) ≠ 0 && column - 1 ≥ 0
  | 4 => cell before line (column + 1) ≠ 0 && column + 1 ≤ columnSize
  | 5 => cell before (line + 1) (column - 1) ≠ 0 && line + 1 ≤ lineSize && column - 1 ≥ 0
  | 6 => cell before (line + 1) column ≠ 0 && line + 1 ≤ lineSize
  | 7 => cell before (line + 1) (column + 1) ≠ 0 && line + 1 ≤ lineSize
      && column + 1 ≤ columnSize
  | _ => false

/-- The counter of `getNumberOfNeighbors` after its first `k` tests. -/
def neighborCount (lineSize columnSize : ℕ) (before : Grid) (line column : ℤ) : ℕ → ℕ
  | 0 => 0
  | k + 1 => neighborCount lineSize columnSize before line column k +
      if neighborTest lineSize columnSize before line column k then 1 else 0

def getNumberOfNeighbors (lineSize columnSize : ℕ) (before : Grid) (line column : ℤ) : ℕ :=
  neighborCount lineSize columnSize before line column 8

/-- The value that `linesthread` gives to a cell with `numNeighbors` neighbors. -/
def rule (before : Grid) (line column : ℤ) (numNeighbors : ℕ) : ℤ :=
  if numNeighbors ≤ 1 ∨ numNeighbors ≥ 4 then 0
  else if numNeighbors = 3 then 1
  else if numNeighbors = 2 ∧ cell before line column ≠ 0 then 1
  else cell before line column

/-- The value of a cell in the next generation. -/
def nextCell (lineSize columnSize : ℕ) (before : Grid) (line column : ℤ) : ℤ :=
  rule before line column (getNumberOfNeighbors lineSize columnSize before line column)

/-- The address of a cell of the board. -/
def OnBoard (lineSize columnSize : ℕ) (k : ℤ) : Prop :=
  0 ≤ k / maxGrid ∧ k / maxGrid < lineSize ∧ k % maxGrid < columnSize

instance (lineSize columnSize : ℕ) (k : ℤ) : Decidable (OnBoard lineSize columnSize k) :=
  inferInstanceAs (Decidable (_ ∧ _ ∧ _))

/-- One generation of the sequential game: every cell of the board is replaced
by the rule, and nothing else changes, in the array or past it. -/
def generation (lineSize columnSize : ℕ) (before : Grid) : Grid := fun k =>
  if OnBoard lineSize columnSize k then
    nextCell lineSize columnSize before (k / maxGrid) (k % maxGrid)
  else before k

/-- No guard of `getNumberOfNeighbors` lets a cell past the array through: the board has at
most 39 rows, and not 39 rows of 40 columns. -/
structure Fits (lineSize columnSize : ℕ) : Prop where
  last_lt : lineSize * maxGrid + columnSize < gridSize

instance (lineSize columnSize : ℕ) : Decidable (Fits lineSize columnSize) :=
  decidable_of_iff (lineSize * maxGrid + columnSize < gridSize) ⟨Fits.mk, Fits.last_lt⟩

/-- Two grids agree on the board. -/
def SameBoard (lineSize columnSize : ℕ) (m m' : Grid) : Prop :=
  ∀ i j : ℕ, i < lineSize → j < columnSize → cell m i j = cell m' i j

/-- Every cell of the board is zero. -/
def AllZero (lineSize columnSize : ℕ) (m : Grid) : Prop :=
  ∀ i j : ℕ, i < lineSize → j < columnSize → cell m i j = 0

/-- The address of a cell in a row tells its line and its column. -/
theorem line_of_address (line column : ℤ) (h₀ : 0 ≤ column) (h₁ : column < 40) :
    (line * maxGrid + column) / maxGrid = line := by
  simp only [maxGrid]
  omega

theorem column_of_address (line column : ℤ) (h₀ : 0 ≤ column) (h₁ : column < 40) :
    (line * maxGrid + column) % maxGrid = column := by
  simp only [maxGrid]
  omega

theorem onBoard_address {lineSize columnSize : ℕ} (hcol : columnSize ≤ 40)
    {line column : ℤ} (hl₀ : 0 ≤ line) (hl₁ : line < lineSize) (hc₀ : 0 ≤ column)
    (hc₁ : column < columnSize) :
    OnBoard lineSize columnSize (line * maxGrid + column) := by
  unfold OnBoard
  rw [line_of_address line column hc₀ (by omega), column_of_address line column hc₀ (by omega)]
  exact ⟨hl₀, hl₁, hc₁⟩

@[simp] theorem cell_store_self (m : Grid) (line column value : ℤ) :
    cell (store m line column value) line column = value := by
  simp [cell, store]

/-- A store changes only its own cell of the array. -/
theorem cell_store_of_ne (m : Grid) {line column line' column' : ℤ} (value : ℤ)
    (h₀ : 0 ≤ column) (h₁ : column < 40) (h₀' : 0 ≤ column') (h₁' : column' < 40)
    (hne : ¬ (line' = line ∧ column' = column)) :
    cell (store m line column value) line' column' = cell m line' column' := by
  have haddr : line' * maxGrid + column' ≠ line * maxGrid + column := by
    simp only [maxGrid]
    omega
  simp only [cell, store, Function.update_of_ne haddr]

/-- Boards of at most 39 rows and columns fit. -/
theorem fits_of_le {lineSize columnSize : ℕ} (hline : lineSize ≤ 39) (hcolumn : columnSize ≤ 39) :
    Fits lineSize columnSize := by
  refine ⟨?_⟩
  simp only [maxGrid, gridSize]
  omega

/-- On a board that fits, what lies past the array does not matter. -/
theorem neighborTest_congr {lineSize columnSize : ℕ} (hfits : Fits lineSize columnSize)
    {m m' : Grid} (h : ∀ k < gridSize, m k = m' k) {line column : ℤ} (hline : line < lineSize)
    (hcolumn : column < columnSize) (k : ℕ) :
    neighborTest lineSize columnSize m line column k =
      neighborTest lineSize columnSize m' line column k := by
  have hcell : ∀ i j : ℤ, i ≤ lineSize → j ≤ columnSize → cell m i j = cell m' i j := by
    intro i j hi hj
    have hlast := hfits.last_lt
    refine h _ ?_
    simp only [maxGrid, gridSize] at hlast ⊢
    omega
  -- the guards leave at most one row below the board and one column beside it
  match k with
  | 0 | 1 | 2 | 3 | 4 | 5 | 6 | 7 =>
      simp only [neighborTest]
      rw [hcell _ _ (by omega) (by omega)]
  | k + 8 => rfl

/-- On the board a generation is the rule. -/
theorem cell_generation {lineSize columnSize : ℕ} (hcol : columnSize ≤ 40) (m : Grid)
    {i j : ℕ} (hi : i < lineSize) (hj : j < columnSize) :
    cell (generation lineSize columnSize m) i j = nextCell lineSize columnSize m i j := by
  have hon := onBoard_address hcol (Int.natCast_nonneg i) (by exact_mod_cast hi)
    (Int.natCast_nonneg j) (by exact_mod_cast hj)
  have hline := line_of_address i j (by omega) (by omega)
  have hcolumn := column_of_address i j (by omega) (by omega)
  simp only [cell, generation, if_pos hon, hline, hcolumn]

end Life

end OperatingSystems
