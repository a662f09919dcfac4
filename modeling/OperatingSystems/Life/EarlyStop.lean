import Mathlib.Dynamics.FixedPoints.Basic
import OperatingSystems.Life.Neighbors
import OperatingSystems.Life.Printing
import OperatingSystems.Life.Refinement

/-!
# The early stop

`main` stops when a generation is all zero or the same as the one before. In
both cases the generation is a fixed point of the rule: an unchanged board is
one as it stands, and on an all-zero board with zero cells around it no cell has
a neighbor. All later generations are then the same, so the board that `main`
prints is the one after the full number of generations.
-/

namespace OperatingSystems

namespace Life

open OperatingSystems.Thread

variable {g : Game}

/-- The cells of the array outside the board are zero. -/
def ClearOutside (lineSize columnSize : ℕ) (m : Grid) : Prop :=
  ∀ line column : ℕ, line < 40 → column < 40 →
    ¬ (line < lineSize ∧ column < columnSize) → cell m line column = 0

/-- The array of a game is clear outside the board at the start. -/
def Game.ClearOutside (g : Game) : Prop :=
  ∀ line column : ℕ, line < 40 → column < 40 →
    ¬ (line < g.lineSize ∧ column < g.columnSize) → cell g.before line column = 0

/-- No generation writes outside the board. -/
theorem Game.hist_of_not_onBoard (n : ℕ) {k : ℤ} (h : ¬ OnBoard g.lineSize g.columnSize k) :
    g.hist n k = g.before k := by
  induction n with
  | zero => rfl
  | succ n ih =>
      rw [g.hist_succ_of_not_onBoard n h, ih]

/-- Two generations that agree on the board agree everywhere. -/
theorem Game.hist_eq_of_sameBoard {m n : ℕ}
    (h : SameBoard g.lineSize g.columnSize (g.hist m) (g.hist n)) : g.hist m = g.hist n := by
  funext k
  by_cases hon : OnBoard g.lineSize g.columnSize k
  · obtain ⟨hline, hline', hcolumn⟩ := hon
    have hmod : 0 ≤ k % maxGrid := Int.emod_nonneg _ (by decide)
    have hcell := h (k / maxGrid).toNat (k % maxGrid).toNat (by omega) (by omega)
    rw [Int.toNat_of_nonneg hline, Int.toNat_of_nonneg hmod] at hcell
    have haddr : k / maxGrid * maxGrid + k % maxGrid = k := Int.ediv_mul_add_emod k maxGrid
    rwa [cell, cell, haddr] at hcell
  · rw [g.hist_of_not_onBoard m hon, g.hist_of_not_onBoard n hon]

/-- The cells just outside a board of at most 39 rows and columns are inside the
array. -/
theorem ClearOutside.borderZero {lineSize columnSize : ℕ} {m : Grid}
    (h : ClearOutside lineSize columnSize m) (hline : lineSize ≤ 39) (hcolumn : columnSize ≤ 39) :
    BorderZero lineSize columnSize m := by
  rintro line column ⟨h₀, h₁, k₀, k₁, hside⟩
  lift line to ℕ using h₀
  lift column to ℕ using k₀
  exact h line column (by omega) (by omega) (by omega)

theorem Game.ClearOutside.hist (h : g.ClearOutside) (n : ℕ) :
    Life.ClearOutside g.lineSize g.columnSize (g.hist n) := by
  intro line column hl hc hside
  have hout : ¬ OnBoard g.lineSize g.columnSize (line * maxGrid + column) := by
    rw [onBoard_iff_inside, line_of_address _ _ (by omega) (by omega),
      column_of_address _ _ (by omega) (by omega)]
    rintro ⟨-, hline, -, hcolumn⟩
    omega
  rw [cell, g.hist_of_not_onBoard n hout]
  exact h line column hl hc hside

/-- An all-zero board with zero cells around it stays as it is. -/
theorem isFixedPt_of_allZero {lineSize columnSize : ℕ} {m : Grid}
    (hborder : BorderZero lineSize columnSize m) (hzero : AllZero lineSize columnSize m) :
    Function.IsFixedPt (generation lineSize columnSize) m := by
  funext k
  unfold generation
  split
  · rename_i hon
    obtain ⟨hline, hline', hcolumn, hcolumn'⟩ := onBoard_iff_inside.mp hon
    have hcells : ∀ line column : ℤ, Inside lineSize columnSize line column →
        cell m line column = 0 := by
      rintro line column ⟨h₀, h₁, k₀, k₁⟩
      lift line to ℕ using h₀
      lift column to ℕ using k₀
      exact hzero line column (by omega) (by omega)
    have hcount : getNumberOfNeighbors lineSize columnSize m (k / maxGrid) (k % maxGrid) = 0 := by
      rw [getNumberOfNeighbors_eq_countP hline hline' hcolumn hcolumn', List.countP_eq_zero]
      intro d _ hd
      obtain ⟨hin | hout, hne⟩ := decide_eq_true_iff.mp hd
      · exact hne (hcells _ _ hin)
      · exact hne (hborder _ _ hout)
    have hself := hcells _ _ ⟨hline, hline', hcolumn, hcolumn'⟩
    have haddr : k / maxGrid * maxGrid + k % maxGrid = k := Int.ediv_mul_add_emod k maxGrid
    rw [nextCell, hcount, rule, if_pos (.inl (Nat.zero_le 1)), ← hself, cell, haddr]
  · rfl

/-- A settled generation is a fixed point of the rule. -/
theorem Game.Settled.isFixedPt {n : ℕ} (h : g.Settled n) (hn : 1 ≤ n)
    (hborder : BorderZero g.lineSize g.columnSize (g.hist n)) :
    Function.IsFixedPt (generation g.lineSize g.columnSize) (g.hist n) := by
  rcases h with hzero | hsame
  · exact isFixedPt_of_allZero hborder hzero
  · have heq := Game.hist_eq_of_sameBoard hsame
    have hstep := g.hist_succ (n - 1)
    rw [Nat.sub_add_cancel hn, ← heq] at hstep
    exact hstep.symm

/-- From a settled generation on the board is always the same. -/
theorem Game.Settled.hist_eq {n : ℕ} (h : g.Settled n) (hn : 1 ≤ n)
    (hborder : BorderZero g.lineSize g.columnSize (g.hist n)) {m : ℕ} (hnm : n ≤ m) :
    g.hist m = g.hist n := by
  induction m, hnm using Nat.le_induction with
  | base => rfl
  | succ m _ ih =>
      rw [g.hist_succ, ih]
      exact h.isFixedPt hn hborder

/-- The generation at which the game ends holds the board of the last one. -/
theorem Game.Ends.hist_eq {n : ℕ} (h : g.Ends n)
    (hborder : ∀ k, BorderZero g.lineSize g.columnSize (g.hist k)) :
    g.hist n = g.hist g.numberOfGenerations := by
  have hle : n ≤ g.numberOfGenerations := h.2 (.inl rfl)
  rcases h.1 with rfl | ⟨hn, hsettled⟩
  · rfl
  · exact (hsettled.hist_eq hn (hborder n) hle).symm

/-- The generation at which the game has ended, and what has been put out, when
`main` is past its prints. -/
theorem ends_of_printed (hfits : Fits g.lineSize g.columnSize) {blank : Msg}
    {s : State g.program} (hs : Transition.Reachable next (g.start blank) s)
    {cGen allDoneCounter i : ℕ}
    (hdone : s.loc .main = MainLoc.join cGen allDoneCounter i ∨
      s.loc .main = MainLoc.finished cGen allDoneCounter) :
    g.Ends cGen ∧ s.mem.printed = printMatrix g.lineSize g.columnSize (g.hist cGen) := by
  have hexcl := exclusive_start g blank
  have ha := abstract_reachable hexcl hs
  have hok := (inv_of_reachable ha).flow.mainOk
  have hboards := (memo_of_reachable hfits ha).boards
  have hprinted := printed_of_reachable hfits ha
  have hloc : (view (abstract s)).main = s.loc .main := by
    refine abstract_main rfl (mainCode_ne_recv fun _ _ _ => ?_)
    rcases hdone with hdone | hdone <;> rw [hdone] <;> simp
  rw [hloc] at hok hboards hprinted
  rcases hdone with hdone | hdone
  · rw [hdone] at hok hboards hprinted
    obtain ⟨hc, hcG, hal, -, -⟩ := hok
    exact ⟨Game.ends_of_stop hc hcG hal hboards.1 hboards.2.2, hprinted⟩
  · rw [hdone] at hok hboards hprinted
    obtain ⟨hc, hcG, hal⟩ := hok
    exact ⟨Game.ends_of_stop hc hcG hal hboards.1 hboards.2.2, hprinted⟩

/-- However early `main` has stopped, it has printed the board after the full
number of generations. -/
theorem early_stop_same_answer {blank : Msg} {s : State g.program}
    (hs : Transition.Reachable next (g.start blank) s) (hline : g.lineSize ≤ 39)
    (hcolumn : g.columnSize ≤ 39) (hclear : g.ClearOutside) {cGen allDoneCounter i : ℕ}
    (hdone : s.loc .main = MainLoc.join cGen allDoneCounter i ∨
      s.loc .main = MainLoc.finished cGen allDoneCounter) :
    s.mem.printed = printMatrix g.lineSize g.columnSize
      ((generation g.lineSize g.columnSize)^[g.numberOfGenerations] g.before) := by
  obtain ⟨hends, hprinted⟩ := ends_of_printed (fits_of_le hline hcolumn) hs hdone
  rw [hprinted, hends.hist_eq fun n => (hclear.hist n).borderZero hline hcolumn]
  rfl

/-- `hook` is printed after three of its five generations. -/
theorem early_stop_same_answer_hook :
    ∃ s, Transition.run next (hookSchedule ++ List.replicate 10 .main)
        (hookFive.start (hookFive.uninit 0 0)) = some s ∧
      s.loc .main = MainLoc.join 3 0 1 ∧
      s.mem.printed = printMatrix 3 2 ((generation 3 2)^[5] hookFive.before) := by
  have hrun : (Transition.run next (hookSchedule ++ List.replicate 10 .main)
      (hookFive.start (hookFive.uninit 0 0))).map (fun s => s.loc .main) =
        some (MainLoc.join 3 0 1) := by decide +kernel
  obtain ⟨s, hs, hreach, hdone⟩ := Transition.exists_of_run_map hrun
  have hclear : hookFive.ClearOutside := by
    intro line column _ _ hout
    refine if_neg fun hlive => hout ?_
    change line < 3 ∧ column < 2
    simp only [maxGrid] at hlive
    omega
  exact ⟨s, hs, hdone, early_stop_same_answer hreach (by decide) (by decide) hclear (.inl hdone)⟩

end Life

end OperatingSystems
