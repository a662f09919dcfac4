import Mathlib.Tactic.Linarith
import OperatingSystems.Life.Invariant

/-!
# The sequential game and the rows of the workers

`hist n` is the board after `n` generations of the sequential game. It is
settled at `n` when it is all zero or the same as the generation before. `Owns`
says which lines the RANGE message gives to a worker: every line of the board
belongs to exactly one worker.
-/

namespace OperatingSystems

namespace Life

section Cells

/-- The place `(line, column)` comes before `(i, j)` when the rows are scanned
from the top. -/
def Past (i j line column : ℤ) : Prop :=
  line < i ∨ line = i ∧ column < j

instance (i j line column : ℤ) : Decidable (Past i j line column) :=
  inferInstanceAs (Decidable (_ ∨ _))

/-- The place after `(i, j)` in its row. -/
theorem past_succ_column {i j line column : ℤ} :
    Past i (j + 1) line column ↔ Past i j line column ∨ line = i ∧ column = j := by
  unfold Past
  omega

/-- The first place of the next row, once the columns of this one are used up. -/
theorem past_succ_line {i j line column n : ℤ} (hj : n ≤ j) (hcolumn : 0 ≤ column)
    (hlt : column < n) : Past (i + 1) 0 line column ↔ Past i j line column := by
  unfold Past
  omega

theorem not_past_zero {line column : ℤ} (hline : 0 ≤ line) (hcolumn : 0 ≤ column) :
    ¬ Past 0 0 line column := by
  unfold Past
  omega

/-- What a scan of the board has checked when it comes to the place `(i, j)`. -/
def Scanned (lineSize columnSize : ℕ) (p : ℕ → ℕ → Prop) (i j : ℕ) : Prop :=
  ∀ line column, line < lineSize → column < columnSize → Past i j line column → p line column

section Scan

variable {lineSize columnSize i j : ℕ} {p : ℕ → ℕ → Prop}

theorem scanned_zero : Scanned lineSize columnSize p 0 0 := fun _ _ _ _ hpast =>
  absurd hpast (not_past_zero (Int.natCast_nonneg _) (Int.natCast_nonneg _))

theorem scanned_succ_column (hi : i < lineSize) (hj : j < columnSize) :
    Scanned lineSize columnSize p i (j + 1) ↔ Scanned lineSize columnSize p i j ∧ p i j := by
  constructor
  · intro h
    refine ⟨fun line column hl hc hpast => h line column hl hc ?_, h i j hi hj ?_⟩
    · push_cast
      exact past_succ_column.mpr (.inl hpast)
    · push_cast
      exact past_succ_column.mpr (.inr ⟨rfl, rfl⟩)
  · rintro ⟨hscan, hp⟩ line column hl hc hpast
    push_cast at hpast
    rcases past_succ_column.mp hpast with hpast | ⟨hline, hcolumn⟩
    · exact hscan line column hl hc hpast
    · obtain rfl : line = i := by omega
      obtain rfl : column = j := by omega
      exact hp

theorem scanned_succ_line (hj : columnSize ≤ j) :
    Scanned lineSize columnSize p (i + 1) 0 ↔ Scanned lineSize columnSize p i j := by
  have hpast : ∀ line column : ℕ, column < columnSize →
      (Past (i + 1 : ℕ) (0 : ℕ) line column ↔ Past i j line column) := by
    intro line column hc
    push_cast
    exact past_succ_line (Int.ofNat_le.mpr hj) (Int.natCast_nonneg column) (Int.ofNat_lt.mpr hc)
  constructor
  · exact fun h line column hl hc hp => h line column hl hc ((hpast line column hc).mpr hp)
  · exact fun h line column hl hc hp => h line column hl hc ((hpast line column hc).mp hp)

/-- A scan that has used up the rows has checked the whole board. -/
theorem scanned_all (hi : lineSize ≤ i) :
    Scanned lineSize columnSize p i j ↔
      ∀ line column, line < lineSize → column < columnSize → p line column :=
  ⟨fun h line column hl hc => h line column hl hc (.inl (by omega)),
    fun h line column hl hc _ => h line column hl hc⟩

end Scan

end Cells

section Game

variable (g : Game)

/-- The board after `n` generations of the sequential game. -/
def Game.hist (n : ℕ) : Grid :=
  (generation g.lineSize g.columnSize)^[n] g.before

/-- Generation `n` is all zero or the same as the generation before it. -/
def Game.Settled (n : ℕ) : Prop :=
  AllZero g.lineSize g.columnSize (g.hist n) ∨
    SameBoard g.lineSize g.columnSize (g.hist n) (g.hist (n - 1))

instance (n : ℕ) : Decidable (g.Settled n) :=
  decidable_of_iff
    ((∀ i < g.lineSize, ∀ j < g.columnSize, cell (g.hist n) i j = 0) ∨
      ∀ i < g.lineSize, ∀ j < g.columnSize,
        cell (g.hist n) i j = cell (g.hist (n - 1)) i j)
    ⟨fun h => h.imp (fun h i j hi hj => h i hi j hj) fun h i j hi hj => h i hi j hj,
      fun h => h.imp (fun h i hi j hj => h i j hi hj) fun h i hi j hj => h i j hi hj⟩

/-- No generation up to `n` is settled. -/
def Game.Unsettled (n : ℕ) : Prop :=
  ∀ k, 1 ≤ k → k ≤ n → ¬ g.Settled k

/-- The lines that `main` has sent to worker `i`. -/
def Game.Owns (i : ℕ) (line : ℤ) : Prop :=
  (g.rangeMsg (i - 1)).value1 ≤ line ∧ line ≤ (g.rangeMsg (i - 1)).value2

theorem Game.hist_succ (n : ℕ) :
    g.hist (n + 1) = generation g.lineSize g.columnSize (g.hist n) :=
  Function.iterate_succ_apply' _ _ _

/-- On the board the next generation is the rule. -/
theorem Game.cell_hist_succ (n : ℕ) {line column : ℤ} (hline : 0 ≤ line)
    (hline' : line < g.lineSize) (hcolumn : 0 ≤ column) (hcolumn' : column < g.columnSize) :
    cell (g.hist (n + 1)) line column =
      nextCell g.lineSize g.columnSize (g.hist n) line column := by
  lift line to ℕ using hline
  lift column to ℕ using hcolumn
  rw [g.hist_succ]
  exact cell_generation g.columnSize_le _ (by omega) (by omega)

/-- Nothing but the board changes from one generation to the next. -/
theorem Game.hist_succ_of_not_onBoard (n : ℕ) {k : ℤ}
    (h : ¬ OnBoard g.lineSize g.columnSize k) : g.hist (n + 1) k = g.hist n k := by
  rw [g.hist_succ]
  simp only [generation, if_neg h]

variable {g}

theorem Game.Unsettled.succ {n : ℕ} (h : g.Unsettled n) (hs : ¬ g.Settled (n + 1)) :
    g.Unsettled (n + 1) := by
  intro k hk hle
  by_cases hkn : k = n + 1
  · exact hkn ▸ hs
  · exact h k hk (by omega)

theorem Game.Unsettled.mono {m n : ℕ} (h : g.Unsettled n) (hmn : m ≤ n) : g.Unsettled m :=
  fun k hk hle => h k hk (le_trans hle hmn)

theorem Game.unsettled_zero : g.Unsettled 0 := fun k hk hle => by omega

/-- The generation that stops the game early. -/
theorem Game.Unsettled.isLeast {n : ℕ} (h : g.Unsettled (n - 1)) (hn : 1 ≤ n)
    (hs : g.Settled n) : IsLeast {k | 1 ≤ k ∧ g.Settled k} n := by
  refine ⟨⟨hn, hs⟩, fun k hk => ?_⟩
  by_contra hlt
  exact h k hk.1 (by omega) hk.2

theorem Game.range_pos : 1 ≤ g.range :=
  Nat.div_pos g.threads_le_lines g.one_le_threads

theorem Game.mul_range_le : g.numberOfThreads * g.range ≤ g.lineSize :=
  Nat.mul_div_le _ _

/-- The first and the last line of a worker. -/
theorem Game.rangeMsg_values {i : ℕ} (hi : i ∈ g.workers) :
    (g.rangeMsg (i - 1)).value1 = ((i - 1) * g.range : ℕ) ∧
      (g.rangeMsg (i - 1)).value2 =
        if i < g.numberOfThreads then ((i * g.range : ℕ) : ℤ) - 1 else (g.lineSize : ℤ) - 1 := by
  obtain ⟨hi1, hiT⟩ := Game.mem_workers.mp hi
  have hpred : i - 1 + 1 = i := by omega
  unfold Game.rangeMsg
  rw [hpred]
  by_cases hlt : i < g.numberOfThreads
  · rw [if_pos hlt, if_pos hlt]
    refine ⟨by push_cast; ring, ?_⟩
    have hcast : ((i - 1 : ℕ) : ℤ) + 1 = i := by omega
    simp only [hcast]
    push_cast
    ring
  · obtain rfl : i = g.numberOfThreads := by omega
    rw [if_neg hlt, if_neg hlt]
    exact ⟨by push_cast; ring, rfl⟩

/-- The lines of a worker are lines of the board. -/
theorem Game.Owns.on_board {i : ℕ} {line : ℤ} (h : g.Owns i line) (hi : i ∈ g.workers) :
    0 ≤ line ∧ line < g.lineSize := by
  obtain ⟨hi1, hiT⟩ := Game.mem_workers.mp hi
  obtain ⟨hfrom, hto⟩ := h
  obtain ⟨hv1, hv2⟩ := Game.rangeMsg_values hi
  have hmul := g.mul_range_le
  have hle : i * g.range ≤ g.numberOfThreads * g.range := Nat.mul_le_mul_right _ hiT
  rw [hv1] at hfrom
  rw [hv2] at hto
  refine ⟨by omega, ?_⟩
  split at hto <;> omega

/-- No line has two workers. -/
theorem Game.Owns.unique {i j : ℕ} {line : ℤ} (hi : i ∈ g.workers) (hj : j ∈ g.workers)
    (h : g.Owns i line) (h' : g.Owns j line) : i = j := by
  have hlt : ∀ i ∈ g.workers, ∀ j ∈ g.workers, g.Owns i line → g.Owns j line → ¬ i < j := by
    intro i hi j hj h h' hij
    obtain ⟨hi1, hiT⟩ := Game.mem_workers.mp hi
    obtain ⟨hj1, hjT⟩ := Game.mem_workers.mp hj
    have hto := h.2
    have hfrom := h'.1
    rw [(Game.rangeMsg_values hi).2, if_pos (by omega)] at hto
    rw [(Game.rangeMsg_values hj).1] at hfrom
    have hle : i * g.range ≤ (j - 1) * g.range := Nat.mul_le_mul_right _ (by omega)
    omega
  have h₁ := hlt i hi j hj h h'
  have h₂ := hlt j hj i hi h' h
  omega

/-- Every line of the board has a worker. -/
theorem Game.exists_owns {line : ℤ} (hline : 0 ≤ line) (hlt : line < g.lineSize) :
    ∃ i ∈ g.workers, g.Owns i line := by
  lift line to ℕ using hline
  have hT := g.one_le_threads
  have hr := g.range_pos
  have hdiv : line / g.range * g.range ≤ line := Nat.div_mul_le_self _ _
  have hdiv' : line < (line / g.range + 1) * g.range := by
    rw [Nat.mul_comm]
    exact Nat.lt_mul_div_succ _ hr
  by_cases hlast : line / g.range + 1 < g.numberOfThreads
  · have hi : line / g.range + 1 ∈ g.workers :=
      Game.mem_workers.mpr ⟨Nat.le_add_left _ _, le_of_lt hlast⟩
    obtain ⟨hv1, hv2⟩ := Game.rangeMsg_values hi
    refine ⟨_, hi, ?_, ?_⟩
    · rw [hv1, Nat.add_sub_cancel]
      omega
    · rw [hv2, if_pos hlast]
      omega
  · have hi : g.numberOfThreads ∈ g.workers := Game.mem_workers.mpr ⟨hT, le_refl _⟩
    obtain ⟨hv1, hv2⟩ := Game.rangeMsg_values hi
    refine ⟨_, hi, ?_, ?_⟩
    · have hle : (g.numberOfThreads - 1) * g.range ≤ line / g.range * g.range :=
        Nat.mul_le_mul_right _ (by omega)
      rw [hv1]
      omega
    · rw [hv2, if_neg (lt_irrefl _)]
      omega

end Game

end Life

end OperatingSystems
