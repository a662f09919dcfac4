import Mathlib.Data.List.Basic
import Mathlib.Tactic.IntervalCases
import OperatingSystems.Life.Reader

/-!
# Neighbor counts at the border of the board

`getNumberOfNeighbors` lets through a neighbor in the row below the last one and
in the column right of the last one. Its count is therefore the number of live
neighbors exactly when these border cells are zero. Where they lie depends on
the board: in an unterminated last line, in the first column of the next row
when there are 40 columns, or past the end of the array. `past n` is the memory
around the array while generation `n` is computed.
-/

namespace OperatingSystems

namespace Life

section Count

/-- The eight neighbors of a cell, in the order of the tests. -/
def offsets : List (ℤ × ℤ) :=
  [(-1, -1), (-1, 0), (-1, 1), (0, -1), (0, 1), (1, -1), (1, 0), (1, 1)]

/-- A cell of the board. -/
def Inside (lineSize columnSize : ℕ) (line column : ℤ) : Prop :=
  0 ≤ line ∧ line < lineSize ∧ 0 ≤ column ∧ column < columnSize

instance (lineSize columnSize : ℕ) (line column : ℤ) :
    Decidable (Inside lineSize columnSize line column) :=
  inferInstanceAs (Decidable (_ ∧ _ ∧ _ ∧ _))

/-- A cell just outside the board, below it or to its right. -/
def Border (lineSize columnSize : ℕ) (line column : ℤ) : Prop :=
  0 ≤ line ∧ line ≤ lineSize ∧ 0 ≤ column ∧ column ≤ columnSize ∧
    (line = lineSize ∨ column = columnSize)

instance (lineSize columnSize : ℕ) (line column : ℤ) :
    Decidable (Border lineSize columnSize line column) :=
  inferInstanceAs (Decidable (_ ∧ _ ∧ _ ∧ _ ∧ _))

/-- The number of live neighbors of a cell within the board. -/
def liveNeighbors (lineSize columnSize : ℕ) (m : Grid) (line column : ℤ) : ℕ :=
  offsets.countP fun d =>
    Inside lineSize columnSize (line + d.1) (column + d.2) ∧
      cell m (line + d.1) (column + d.2) ≠ 0

/-- All border cells are zero. -/
def BorderZero (lineSize columnSize : ℕ) (m : Grid) : Prop :=
  ∀ line column : ℤ, Border lineSize columnSize line column → cell m line column = 0

/-- The neighbor counts of all cells of the board are the numbers of their live
neighbors. -/
def Exact (lineSize columnSize : ℕ) (m : Grid) : Prop :=
  ∀ line column : ℕ, line < lineSize → column < columnSize →
    getNumberOfNeighbors lineSize columnSize m line column =
      liveNeighbors lineSize columnSize m line column

variable {lineSize columnSize : ℕ} {m : Grid} {line column : ℤ}

/-- The neighbor at offset `d` is let through by the guards and is not zero. -/
def Counts (lineSize columnSize : ℕ) (m : Grid) (line column : ℤ) (d : ℤ × ℤ) : Prop :=
  (Inside lineSize columnSize (line + d.1) (column + d.2) ∨
    Border lineSize columnSize (line + d.1) (column + d.2)) ∧
    cell m (line + d.1) (column + d.2) ≠ 0

instance (d : ℤ × ℤ) : Decidable (Counts lineSize columnSize m line column d) :=
  inferInstanceAs (Decidable ((_ ∨ _) ∧ _))

/-- The `k`-th test looks at the `k`-th neighbor, if it is a cell of the board or
of its border. -/
theorem neighborTest_iff (h₀ : 0 ≤ line) (h₁ : line < lineSize) (k₀ : 0 ≤ column)
    (k₁ : column < columnSize) {k : ℕ} (hk : k < offsets.length) :
    neighborTest lineSize columnSize m line column k = true ↔
      Counts lineSize columnSize m line column offsets[k] := by
  have hk' : k < 8 := hk
  interval_cases k <;>
    simp only [neighborTest, offsets, Counts, Inside, Border, Bool.and_eq_true,
      decide_eq_true_eq, List.getElem_cons_zero, List.getElem_cons_succ, add_zero,
      ← sub_eq_add_neg] <;>
    omega

/-- The counter after the first `k` tests. -/
theorem neighborCount_eq_countP (h₀ : 0 ≤ line) (h₁ : line < lineSize) (k₀ : 0 ≤ column)
    (k₁ : column < columnSize) {k : ℕ} (hk : k ≤ offsets.length) :
    neighborCount lineSize columnSize m line column k =
      (offsets.take k).countP fun d => Counts lineSize columnSize m line column d := by
  induction k with
  | zero => rfl
  | succ k ih =>
      rw [neighborCount, ih (by omega), List.take_succ_eq_append_getElem hk, List.countP_append,
        List.countP_singleton, if_congr (neighborTest_iff h₀ h₁ k₀ k₁ hk) rfl rfl]
      simp

theorem getNumberOfNeighbors_eq_countP (h₀ : 0 ≤ line) (h₁ : line < lineSize)
    (k₀ : 0 ≤ column) (k₁ : column < columnSize) :
    getNumberOfNeighbors lineSize columnSize m line column =
      offsets.countP fun d => Counts lineSize columnSize m line column d := by
  have hcount := neighborCount_eq_countP (m := m) h₀ h₁ k₀ k₁ (le_refl offsets.length)
  rwa [List.take_length] at hcount

/-- Two counts of one list, the first of fewer elements, are the same only if
they are of the same elements. -/
theorem of_countP_eq {α : Type} {p q : α → Bool} {l : List α} (hpq : ∀ a, p a → q a)
    (h : l.countP p = l.countP q) {a : α} (ha : a ∈ l) (hq : q a) : p a := by
  have hsub : List.Sublist (l.filter p) (l.filter q) := List.monotone_filter_right l hpq
  have hsame : l.filter p = l.filter q :=
    hsub.eq_of_length (by rw [← List.countP_eq_length_filter, ← List.countP_eq_length_filter, h])
  exact (List.mem_filter.mp (hsame ▸ List.mem_filter.mpr ⟨ha, hq⟩)).2

/-- Zero border cells are not counted. -/
theorem BorderZero.exact (h : BorderZero lineSize columnSize m) :
    Exact lineSize columnSize m := by
  intro line column hline hcolumn
  rw [getNumberOfNeighbors_eq_countP (Int.natCast_nonneg line) (by exact_mod_cast hline)
    (Int.natCast_nonneg column) (by exact_mod_cast hcolumn)]
  refine List.countP_congr fun d _ =>
    decide_eq_true_iff.trans (Iff.trans ?_ decide_eq_true_iff.symm)
  refine and_congr_left fun hne => or_iff_left ?_
  exact fun hborder => hne (h _ _ hborder)

/-- The offset from the nearest cell of the board to a border cell. -/
theorem border_offset {line column : ℕ} (hline : 1 ≤ lineSize) (hcolumn : 1 ≤ columnSize)
    (h : Border lineSize columnSize line column) :
    ∃ i j : ℕ, i < lineSize ∧ j < columnSize ∧ ∃ d ∈ offsets,
      (i : ℤ) + d.1 = line ∧ (j : ℤ) + d.2 = column := by
  obtain ⟨-, h₁, -, k₁, hside⟩ := h
  by_cases hl : line = lineSize
  · by_cases hc : column = columnSize
    · exact ⟨line - 1, column - 1, by omega, by omega, (1, 1), by decide, by omega, by omega⟩
    · exact ⟨line - 1, column, by omega, by omega, (1, 0), by decide, by omega, by omega⟩
  · exact ⟨line, column - 1, by omega, by omega, (0, 1), by decide, by omega, by omega⟩

/-- A border cell that is not zero is counted by a cell next to it. -/
theorem Exact.borderZero (hline : 1 ≤ lineSize) (hcolumn : 1 ≤ columnSize)
    (h : Exact lineSize columnSize m) : BorderZero lineSize columnSize m := by
  intro line column hborder
  by_contra hne
  lift line to ℕ using hborder.1
  lift column to ℕ using hborder.2.2.1
  obtain ⟨i, j, hi, hj, d, hd, hdl, hdc⟩ := border_offset hline hcolumn hborder
  have hcount := h i j hi hj
  rw [getNumberOfNeighbors_eq_countP (Int.natCast_nonneg i) (by exact_mod_cast hi)
    (Int.natCast_nonneg j) (by exact_mod_cast hj)] at hcount
  have hlive := of_countP_eq (fun d hd => ?_) hcount.symm hd (?_)
  · -- a live neighbor lies inside the board
    simp only [decide_eq_true_eq, hdl, hdc] at hlive
    obtain ⟨⟨-, hlt, -, hlt'⟩, -⟩ := hlive
    have hside := hborder.2.2.2.2
    omega
  · have hin := decide_eq_true_iff.mp hd
    exact decide_eq_true_iff.mpr ⟨.inl hin.1, hin.2⟩
  · refine decide_eq_true_iff.mpr ⟨.inr ?_, ?_⟩
    · rwa [hdl, hdc]
    · rwa [hdl, hdc]

end Count

section Generations

/-- The array in the memory around it. -/
def inMemory (m past : Grid) : Grid := fun k =>
  if 0 ≤ k ∧ k < maxGrid * maxGrid then m k else past k

/-- `before` while generation `n` is computed. -/
def Board.played (b : Board) (past : ℕ → Grid) : ℕ → Grid
  | 0 => inMemory b.before (past 0)
  | n + 1 => inMemory (generation b.lineSize b.columnSize (b.played past n)) (past (n + 1))

/-- One generation of the game of life, in which only the neighbors on the board
count. -/
def liveGeneration (lineSize columnSize : ℕ) (m : Grid) : Grid := fun k =>
  if OnBoard lineSize columnSize k then
    rule m (k / maxGrid) (k % maxGrid)
      (liveNeighbors lineSize columnSize m (k / maxGrid) (k % maxGrid))
  else m k

/-- The board after `n` generations of the game of life. -/
def Board.game (b : Board) (n : ℕ) : Grid :=
  (liveGeneration b.lineSize b.columnSize)^[n] b.before

variable {b : Board} {past : ℕ → Grid}

theorem Board.game_succ (n : ℕ) :
    b.game (n + 1) = liveGeneration b.lineSize b.columnSize (b.game n) :=
  Function.iterate_succ_apply' _ _ _

theorem Board.game_of_not_onBoard (n : ℕ) {k : ℤ} (h : ¬ OnBoard b.lineSize b.columnSize k) :
    b.game n k = b.before k := by
  induction n with
  | zero => rfl
  | succ n ih =>
      rw [Board.game_succ, liveGeneration, if_neg h, ih]

/-- A cell of the board lies in the array. -/
theorem address_of_inside (hline : b.lineSize ≤ 40) (hcolumn : b.columnSize ≤ 40)
    {line column : ℤ} (h : Inside b.lineSize b.columnSize line column) :
    0 ≤ line * maxGrid + column ∧ line * maxGrid + column < maxGrid * maxGrid := by
  obtain ⟨h₀, h₁, k₀, k₁⟩ := h
  simp only [maxGrid]
  omega

theorem onBoard_iff_inside {lineSize columnSize : ℕ} {k : ℤ} :
    OnBoard lineSize columnSize k ↔
      Inside lineSize columnSize (k / maxGrid) (k % maxGrid) := by
  have hmod : 0 ≤ k % maxGrid := Int.emod_nonneg _ (by simp [maxGrid])
  exact ⟨fun ⟨h₀, h₁, h₂⟩ => ⟨h₀, h₁, hmod, h₂⟩, fun ⟨h₀, h₁, _, h₂⟩ => ⟨h₀, h₁, h₂⟩⟩

/-- The live neighbors depend on the board alone. -/
theorem liveNeighbors_congr {lineSize columnSize : ℕ} {m m' : Grid}
    (h : ∀ line column : ℤ, Inside lineSize columnSize line column →
      cell m line column = cell m' line column) (line column : ℤ) :
    liveNeighbors lineSize columnSize m line column =
      liveNeighbors lineSize columnSize m' line column := by
  refine List.countP_congr fun d _ =>
    decide_eq_true_iff.trans (Iff.trans ?_ decide_eq_true_iff.symm)
  exact and_congr_right fun hin => by rw [h _ _ hin]

/-- As long as all counts have been exact, `before` is the game of life. -/
theorem Board.played_eq (hline : b.lineSize ≤ 40) (hcolumn : b.columnSize ≤ 40) {n : ℕ}
    (h : ∀ k < n, Exact b.lineSize b.columnSize (b.played past k)) :
    b.played past n = inMemory (b.game n) (past n) := by
  induction n with
  | zero => rfl
  | succ n ih =>
      have ih := ih fun k hk => h k (Nat.lt_succ_of_lt hk)
      have hexact := h n (Nat.lt_succ_self n)
      have hcell : ∀ line column : ℤ, Inside b.lineSize b.columnSize line column →
          cell (b.played past n) line column = cell (b.game n) line column := by
        intro line column hin
        simp only [cell, ih, inMemory, if_pos (address_of_inside hline hcolumn hin)]
      rw [Board.played, Board.game_succ]
      funext k
      unfold inMemory
      refine if_ctx_congr Iff.rfl (fun hk => ?_) fun _ => rfl
      unfold generation liveGeneration
      refine if_ctx_congr Iff.rfl (fun hon => ?_) fun _ => ?_
      · have hin := onBoard_iff_inside.mp hon
        have hcount := hexact (k / maxGrid).toNat (k % maxGrid).toNat
          (by have := hin.1; have := hin.2.1; omega)
          (by have := hin.2.2.1; have := hin.2.2.2; omega)
        rw [Int.toNat_of_nonneg hin.1, Int.toNat_of_nonneg hin.2.2.1] at hcount
        rw [nextCell, hcount, liveNeighbors_congr hcell]
        simp only [rule, hcell _ _ hin]
      · rw [ih, inMemory, if_pos hk]

/-- The border is zero in every generation. -/
theorem Board.exact_iff (hline : b.lineSize ≤ 40) (hcolumn : b.columnSize ≤ 40)
    (hline' : 1 ≤ b.lineSize) (hcolumn' : 1 ≤ b.columnSize) (generations : ℕ) :
    (∀ n < generations, Exact b.lineSize b.columnSize (b.played past n)) ↔
      ∀ n < generations,
        BorderZero b.lineSize b.columnSize (inMemory (b.game n) (past n)) := by
  constructor
  · intro h n hn
    rw [← b.played_eq hline hcolumn fun k hk => h k (hk.trans hn)]
    exact (h n hn).borderZero hline' hcolumn'
  · intro h n
    induction n using Nat.strong_induction_on with
    | h n ih =>
        intro hn
        rw [b.played_eq hline hcolumn fun k hk => ih k hk (hk.trans hn)]
        exact (h n hn).exact

end Generations

section Reader

variable {b : Board} {past : ℕ → Grid}

/-- Where the border of a board that was read can be other than zero: in an
unterminated last line, in the first column of a board of 40 columns, and past
the end of the array. -/
structure BorderClear (b : Board) (past : ℕ → Grid) (generations : ℕ) : Prop where
  lastLine : b.lineSize < 40 → ∀ column : ℕ, column < b.columnSize →
    cell b.before b.lineSize column = 0
  wrapped : b.columnSize = 40 → ∀ n < generations, ∀ line : ℕ, 1 ≤ line → line < b.lineSize →
    cell (b.game n) line 0 = 0
  outside : ∀ n < generations, ∀ k : ℤ, maxGrid * maxGrid ≤ k →
    k ≤ b.lineSize * maxGrid + b.columnSize → past n k = 0

theorem cell_inMemory_of_lt {m p : Grid} {line column : ℤ} (h₀ : 0 ≤ line * maxGrid + column)
    (h₁ : line * maxGrid + column < maxGrid * maxGrid) :
    cell (inMemory m p) line column = cell m line column := by
  simp only [cell, inMemory, if_pos (And.intro h₀ h₁)]

theorem cell_inMemory_of_le {m p : Grid} {line column : ℤ}
    (h : maxGrid * maxGrid ≤ line * maxGrid + column) :
    cell (inMemory m p) line column = p (line * maxGrid + column) := by
  simp only [cell, inMemory, if_neg (not_and_of_not_right _ (not_lt.mpr h))]

/-- The cell right of a full row is the first one of the next row. -/
theorem cell_wrap (m : Grid) (line : ℤ) : cell m line 40 = cell m (line + 1) 0 := by
  simp only [cell, maxGrid]
  congr 1
  omega

/-- A cell outside the board is as the reader left it. -/
theorem Board.cell_game_of_not_inside (n : ℕ) {line column : ℤ} (h₀ : 0 ≤ column)
    (h₁ : column < 40) (h : ¬ Inside b.lineSize b.columnSize line column) :
    cell (b.game n) line column = cell b.before line column := by
  refine b.game_of_not_onBoard n fun hon => h ?_
  rw [onBoard_iff_inside, line_of_address line column h₀ h₁,
    column_of_address line column h₀ h₁] at hon
  exact hon

/-- The border cells of a board that was read. -/
theorem BorderClear.borderZero (hline : b.lineSize ≤ 40) (hcolumn : b.columnSize ≤ 40)
    (hblank : Blank b.before (b.lineSize + 1) b.columnSize) {generations n : ℕ}
    (h : BorderClear b past generations) (hn : n < generations) :
    BorderZero b.lineSize b.columnSize (inMemory (b.game n) (past n)) := by
  rintro line column ⟨h₀, h₁, k₀, k₁, hside⟩
  by_cases hout : maxGrid * maxGrid ≤ line * maxGrid + column
  · rw [cell_inMemory_of_le hout]
    exact h.outside n hn _ hout (by simp only [maxGrid]; omega)
  · rw [cell_inMemory_of_lt (by simp only [maxGrid]; omega) (not_le.mp hout)]
    simp only [maxGrid] at hout
    by_cases hwrap : column = 40
    · rw [hwrap, cell_wrap]
      by_cases hin : line + 1 < b.lineSize
      · have hcell := h.wrapped (by omega) n hn (line + 1).toNat (by omega) (by omega)
        rwa [Int.toNat_of_nonneg (by omega)] at hcell
      · rw [b.cell_game_of_not_inside n (le_refl _) (by omega) (fun hi => hin hi.2.1)]
        by_cases hlast : line + 1 = b.lineSize
        · rw [hlast]
          exact h.lastLine (by omega) 0 (by omega)
        · exact hblank _ _ (le_refl _) (by omega) (.inr (.inl (by push_cast; omega)))
    · rw [b.cell_game_of_not_inside n k₀ (by omega) (fun hi => by
        have := hi.2.1
        have := hi.2.2.2
        omega)]
      by_cases hcol : column = b.columnSize
      · exact hblank _ _ k₀ (by omega) (.inr (.inr (by omega)))
      · obtain rfl : line = b.lineSize := by omega
        lift column to ℕ using k₀
        exact h.lastLine (by omega) column (by omega)

/-- The other way round: each of the three places is read as a border cell. -/
theorem borderClear_of_borderZero (hline : b.lineSize ≤ 40) (hcolumn : b.columnSize ≤ 40)
    (hline' : 1 ≤ b.lineSize) {generations : ℕ} (hgen : 1 ≤ generations)
    (h : ∀ n < generations,
      BorderZero b.lineSize b.columnSize (inMemory (b.game n) (past n))) :
    BorderClear b past generations := by
  refine ⟨fun hlt column hcol => ?_, fun hfull n hn line hl hl' => ?_, fun n hn k hk hk' => ?_⟩
  · have hzero := h 0 hgen b.lineSize column
      ⟨by omega, le_refl _, by omega, by omega, .inl rfl⟩
    rwa [cell_inMemory_of_lt (by simp only [maxGrid]; omega)
      (by simp only [maxGrid]; omega)] at hzero
  · have hzero := h n hn (line - 1) 40 ⟨by omega, by omega, by omega, by omega, .inr (by omega)⟩
    rw [cell_inMemory_of_lt (by simp only [maxGrid]; omega)
      (by simp only [maxGrid]; omega), cell_wrap, sub_add_cancel] at hzero
    exact hzero
  · simp only [maxGrid] at hk hk'
    by_cases hfull : b.lineSize = 40
    · have hzero := h n hn 40 (k - 1600)
        ⟨by omega, by omega, by omega, by omega, .inl (by omega)⟩
      rw [cell_inMemory_of_le (by simp only [maxGrid]; omega)] at hzero
      rwa [show 40 * maxGrid + (k - 1600) = k by simp only [maxGrid]; omega] at hzero
    · have hzero := h n hn 39 40 ⟨by omega, by omega, by omega, by omega, .inl (by omega)⟩
      rw [cell_inMemory_of_le (by simp only [maxGrid]; omega)] at hzero
      rwa [show 39 * maxGrid + 40 = k by simp only [maxGrid]; omega] at hzero

/-- On a board that was read, all neighbor counts of all generations are exact
if and only if the border cells are zero. -/
theorem neighbors_exact_iff {file : List UInt8} (hread : reader file = some b)
    (hline : 1 ≤ b.lineSize) (hcolumn : 1 ≤ b.columnSize) (past : ℕ → Grid) {generations : ℕ}
    (hgen : 1 ≤ generations) :
    (∀ n < generations, ∀ line column : ℕ, line < b.lineSize → column < b.columnSize →
      getNumberOfNeighbors b.lineSize b.columnSize (b.played past n) line column =
        liveNeighbors b.lineSize b.columnSize (b.played past n) line column) ↔
      BorderClear b past generations := by
  obtain ⟨hline40, hcolumn40, hblank⟩ := reader_spec hread
  rw [← (b.exact_iff hline40 hcolumn40 hline hcolumn generations).trans
    ⟨borderClear_of_borderZero hline40 hcolumn40 hline hgen,
      fun h n hn => h.borderZero hline40 hcolumn40 hblank hn⟩]
  rfl

/-- Four of six cells live, and an unterminated last line without live cells. -/
def unterminatedFile : List UInt8 :=
  [48, 32, 49, 10, 48, 32, 49, 10, 49, 32, 49, 10, 48, 32, 48]

/-- Its counts are exact in the three generations that it takes to settle. -/
theorem neighbors_exact_unterminatedFile : ∃ b, reader unterminatedFile = some b ∧
    b.lineSize = 3 ∧
    getNumberOfNeighbors b.lineSize b.columnSize (b.played (fun _ _ => 0) 0) 1 1 = 3 ∧
    ∀ n < 3, ∀ line column : ℕ, line < b.lineSize → column < b.columnSize →
      getNumberOfNeighbors b.lineSize b.columnSize (b.played (fun _ _ => 0) n) line column =
        liveNeighbors b.lineSize b.columnSize (b.played (fun _ _ => 0) n) line column := by
  have hread : reader unterminatedFile = some _ := rfl
  have hexact := (neighbors_exact_iff hread (by decide) (by decide) (fun _ _ => 0)
    (by decide : 1 ≤ 3)).mpr ⟨fun _ column hcolumn => ?_, fun hfull => ?_, fun _ _ _ _ _ => rfl⟩
  · exact ⟨_, hread, rfl, (hexact 0 (by decide) 1 1 (by decide) (by decide)).trans (by decide),
      hexact⟩
  · have hcolumn : column < 2 := hcolumn
    interval_cases column <;> rfl
  · exact absurd hfull (by decide)

/-- Two full rows of 40 columns, all cells empty but the first one of the second
row. -/
def wideFile : List UInt8 :=
  (List.replicate 40 [48, 32]).flatten ++ [10, 49, 32] ++ (List.replicate 39 [48, 32]).flatten ++
    [10]

/-- The last cell of the first row counts the first cell of the second row. -/
theorem not_exact_wideFile : ∃ b, reader wideFile = some b ∧ b.lineSize = 2 ∧
    b.columnSize = 40 ∧ ∀ past, ¬ ∀ line column : ℕ, line < b.lineSize → column < b.columnSize →
      getNumberOfNeighbors b.lineSize b.columnSize (b.played past 0) line column =
        liveNeighbors b.lineSize b.columnSize (b.played past 0) line column := by
  have hread : (reader wideFile).map (fun b => (b.lineSize, b.columnSize, cell b.before 1 0)) =
      some (2, 40, 1) := by decide
  obtain ⟨b, hb, heq⟩ := Option.map_eq_some_iff.mp hread
  obtain ⟨hline, heq⟩ := Prod.mk.inj heq
  obtain ⟨hcolumn, hcell⟩ := Prod.mk.inj heq
  refine ⟨b, hb, hline, hcolumn, fun past hexact => ?_⟩
  have hborder := Exact.borderZero (by omega) (by omega) hexact 0 40
    ⟨le_refl _, by omega, by omega, by omega, .inr (by omega)⟩
  rw [Board.played, cell_inMemory_of_lt (by decide) (by decide), cell_wrap] at hborder
  change cell b.before 1 0 = 0 at hborder
  omega

end Reader

end Life

end OperatingSystems
