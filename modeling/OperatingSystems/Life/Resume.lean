import OperatingSystems.Life.EarlyStop
import OperatingSystems.Life.Saved
import OperatingSystems.Life.Schedule

/-!
# Playing on from a board that has been written

The last lines that a game writes are a board file. A game that is started from that
file goes on where the first game ended: what it writes at its end is what one game
of all the generations would have written, however early any of the games stopped
and in whatever order their threads ran.
-/

namespace OperatingSystems

namespace Life

open OperatingSystems.Thread OperatingSystems.Output

section Generations

variable {lineSize columnSize : ℕ} {m m' : Grid}

/-- On boards with zero cells around them a generation depends only on the board. -/
theorem SameBoard.generation (hcolumn : columnSize ≤ 40) (h : SameBoard lineSize columnSize m m')
    (hm : BorderZero lineSize columnSize m) (hm' : BorderZero lineSize columnSize m') :
    SameBoard lineSize columnSize (Life.generation lineSize columnSize m)
      (Life.generation lineSize columnSize m') := by
  have hinside : ∀ {line column : ℤ}, Inside lineSize columnSize line column →
      cell m line column = cell m' line column := by
    rintro line column ⟨h₀, h₁, k₀, k₁⟩
    lift line to ℕ using h₀
    lift column to ℕ using k₀
    exact h line column (by omega) (by omega)
  intro i j hi hj
  have hi' : (i : ℤ) < lineSize := by exact_mod_cast hi
  have hj' : (j : ℤ) < columnSize := by exact_mod_cast hj
  have hcounts : ∀ d, Counts lineSize columnSize m i j d ↔ Counts lineSize columnSize m' i j d := by
    intro d
    refine and_congr_right fun hplace => ?_
    rcases hplace with hin | hout
    · rw [hinside hin]
    · rw [hm _ _ hout, hm' _ _ hout]
  rw [cell_generation hcolumn m hi hj, cell_generation hcolumn m' hi hj, nextCell, nextCell,
    getNumberOfNeighbors_eq_countP (Int.natCast_nonneg i) hi' (Int.natCast_nonneg j) hj',
    getNumberOfNeighbors_eq_countP (Int.natCast_nonneg i) hi' (Int.natCast_nonneg j) hj',
    List.countP_congr fun d _ => decide_eq_true_iff.trans
      ((hcounts d).trans decide_eq_true_iff.symm)]
  simp only [rule, h i j hi hj]

/-- A generation of `int` cells has `int` cells. -/
theorem isInt_generation (hcolumn : columnSize ≤ 40)
    (h : ∀ i j : ℕ, i < lineSize → j < columnSize → IsInt (cell m i j)) {i j : ℕ}
    (hi : i < lineSize) (hj : j < columnSize) :
    IsInt (cell (Life.generation lineSize columnSize m) i j) := by
  have hzero : IsInt 0 := by simp [IsInt]
  have hone : IsInt 1 := by simp [IsInt]
  rw [cell_generation hcolumn m hi hj, nextCell, rule]
  repeat' split
  · exact hzero
  · exact hone
  · exact hone
  · exact h i j hi hj

end Generations

section Tail

/-- The last lines of a text that ends with a newline. -/
def tail (n : ℕ) (out : List UInt8) : List UInt8 :=
  text ((getlines out).dropLast.drop ((getlines out).length - 1 - n))

/-- The lines after a newline. -/
theorem tail_text (before : List UInt8) {lines : List (List UInt8)} (h : ∀ l ∈ lines, IsLine l) :
    tail lines.length (before ++ [10] ++ text lines) = text lines := by
  have hlines : getlines (before ++ [10] ++ text lines) =
      getlines before ++ lines ++ [[]] := by
    have hsplit := getlines_text h
    rw [getlines] at hsplit ⊢
    rw [List.append_assoc, List.singleton_append, List.splitOn_append_cons_self, hsplit,
      ← List.append_assoc]
    rfl
  rw [tail, hlines, List.dropLast_concat, List.length_append, List.length_append,
    List.length_singleton]
  have hdrop : (getlines before).length + lines.length + 1 - 1 - lines.length =
      (getlines before).length := by omega
  rw [hdrop, List.drop_left']
  rfl

end Tail

section Games

/-- A game on a board. -/
structure Game.Plays (g : Game) (b : Board) : Prop where
  lineSize : g.lineSize = b.lineSize
  columnSize : g.columnSize = b.columnSize
  before : g.before = b.before

/-- Some complete run of a game writes this. -/
def Game.Writes (g : Game) (o : Options) (out : List UInt8) : Prop :=
  ∃ (blank : Msg) (input : List UInt8) (s : State (g.terminal o)) (cGen al : ℕ),
    Transition.Reachable next (g.startTerminal o blank input) s ∧
      s.loc .main = TerminalLoc.game (.finished cGen al) ∧ s.mem.output = out

variable {g g₁ g₂ : Game} {o : Options} {out : List UInt8}

/-- The last lines of a complete run are the board after all generations. -/
theorem tail_of_writes (hfits : Fits g.lineSize g.columnSize) (h : g.Writes o out)
    (hborder : ∀ n, BorderZero g.lineSize g.columnSize (g.hist n)) :
    tail g.lineSize out =
      matrixText g.lineSize g.columnSize (g.hist g.numberOfGenerations) := by
  obtain ⟨blank, input, s, cGen, al, hs, hl, rfl⟩ := h
  obtain ⟨hends, hout, -⟩ := transcript_of_printed hfits hs (.inr hl)
  have hlen : (matrixLines g.lineSize g.columnSize (g.hist cGen)).length = g.lineSize := by
    simp [matrixLines]
  have hnewline : g.transcript o cGen = g.shown o (g.roundsBegun cGen) ++
      (ascii "The game ends after " ++ decimal cGen ++ ascii " generations with:") ++ [10] ++
        text (matrixLines g.lineSize g.columnSize (g.hist cGen)) := by
    rw [Game.transcript, Game.ending, endLine, matrixText_eq]
    simp only [List.append_assoc]
    rfl
  have htail := tail_text (g.shown o (g.roundsBegun cGen) ++
    (ascii "The game ends after " ++ decimal cGen ++ ascii " generations with:"))
    fun l (hl : l ∈ matrixLines g.lineSize g.columnSize (g.hist cGen)) =>
      isLine_of_mem_matrixLines hl
  rw [hlen] at htail
  rw [hout, hnewline, htail, ← matrixText_eq, hends.hist_eq hborder]

/-- Games that begin with the same board go on with the same boards. -/
theorem sameBoard_hist (hlines : g₂.lineSize = g₁.lineSize)
    (hcolumns : g₂.columnSize = g₁.columnSize) {k : ℕ}
    (hborder : ∀ n, BorderZero g₁.lineSize g₁.columnSize (g₁.hist n))
    (hborder' : ∀ n, BorderZero g₁.lineSize g₁.columnSize (g₂.hist n))
    (h : SameBoard g₁.lineSize g₁.columnSize (g₂.hist 0) (g₁.hist k)) (n : ℕ) :
    SameBoard g₁.lineSize g₁.columnSize (g₂.hist n) (g₁.hist (k + n)) := by
  induction n with
  | zero => exact h
  | succ n ih =>
      rw [g₂.hist_succ, hlines, hcolumns, ← Nat.add_assoc, g₁.hist_succ]
      exact ih.generation g₁.columnSize_le (hborder' n) (hborder _)

/-- Games on the same board have the same history. -/
theorem hist_eq_of_before (hlines : g₂.lineSize = g₁.lineSize)
    (hcolumns : g₂.columnSize = g₁.columnSize) (hbefore : g₂.before = g₁.before) (n : ℕ) :
    g₂.hist n = g₁.hist n := by
  rw [Game.hist, Game.hist, hlines, hcolumns, hbefore]

theorem isInt_hist
    (hint : ∀ i j : ℕ, i < g.lineSize → j < g.columnSize → IsInt (cell g.before i j)) (n : ℕ) :
    ∀ i j : ℕ, i < g.lineSize → j < g.columnSize → IsInt (cell (g.hist n) i j) := by
  induction n with
  | zero => exact hint
  | succ n ih =>
      intro i j hi hj
      rw [g.hist_succ]
      exact isInt_generation g.columnSize_le ih hi hj

/-- What a board of at most 39 rows and columns has around it stays zero. -/
theorem borderZero_hist {b : Board} (h : g.Plays b) (hlines : b.lineSize ≤ 39)
    (hcolumns : b.columnSize ≤ 39) (hclear : ClearOutside b.lineSize b.columnSize b.before)
    (n : ℕ) : BorderZero g.lineSize g.columnSize (g.hist n) := by
  obtain ⟨hline, hcolumn, hbefore⟩ := h
  have hclear' : g.ClearOutside := by
    intro line column hl hc hout
    rw [hbefore]
    exact hclear line column hl hc (by rwa [← hline, ← hcolumn])
  exact (hclear'.hist n).borderZero (by omega) (by omega)

/-- The last lines of a complete run on a board of at most 39 rows and columns are a
board file, and a game on the board of that file ends with the lines with which one
game of all the generations ends, whatever the threads, the schedules and the early
stops of the three games. -/
theorem resumed_same_answer {b : Board} (h₁ : g₁.Plays b) (hlines : b.lineSize ≤ 39)
    (hcolumns : b.columnSize ≤ 39) (hclear : ClearOutside b.lineSize b.columnSize b.before)
    (hint : ∀ i j : ℕ, i < b.lineSize → j < b.columnSize → IsInt (cell b.before i j))
    (hout : g₁.Writes o out) :
    ∃ b', reader (tail b.lineSize out) = some b' ∧ b'.lineSize = b.lineSize ∧
      b'.columnSize = b.columnSize ∧
      ∀ (g₂ g₃ : Game) (o₂ o₃ : Options) (out₂ out₃ : List UInt8), g₂.Plays b' → g₃.Plays b →
        g₃.numberOfGenerations = g₁.numberOfGenerations + g₂.numberOfGenerations →
        g₂.Writes o₂ out₂ → g₃.Writes o₃ out₃ → tail b.lineSize out₂ = tail b.lineSize out₃ := by
  have hborder := borderZero_hist h₁ hlines hcolumns hclear
  obtain ⟨hline₁, hcolumn₁, hbefore₁⟩ := h₁
  have hint₁ : ∀ i j : ℕ, i < g₁.lineSize → j < g₁.columnSize → IsInt (cell g₁.before i j) := by
    rwa [hline₁, hcolumn₁, hbefore₁]
  have htail := tail_of_writes (fits_of_le (by omega) (by omega)) hout hborder
  have hone : 1 ≤ g₁.lineSize := le_trans g₁.one_le_threads g₁.threads_le_lines
  obtain ⟨b', hread, hline, hcolumn, hsame, hzero⟩ := reader_matrixText hone g₁.lineSize_le
    g₁.columnSize_le (isInt_hist hint₁ g₁.numberOfGenerations)
  refine ⟨b', by rw [← hline₁, htail, hread], hline.trans hline₁, hcolumn.trans hcolumn₁, ?_⟩
  intro g₂ g₃ o₂ o₃ out₂ out₃ h₂ h₃ hgen hout₂ hout₃
  have hborder₃ := borderZero_hist h₃ hlines hcolumns hclear
  have hclear' : ClearOutside b'.lineSize b'.columnSize b'.before := by
    intro line column hl hc hout
    refine hzero _ ?_
    rw [onBoard_iff_inside, line_of_address _ _ (by omega) (by omega),
      column_of_address _ _ (by omega) (by omega)]
    rintro ⟨-, hlt, -, hlt'⟩
    omega
  have hborder₂ := borderZero_hist h₂ (by omega) (by omega) hclear'
  obtain ⟨hline₂, hcolumn₂, hbefore₂⟩ := h₂
  obtain ⟨hline₃, hcolumn₃, hbefore₃⟩ := h₃
  have htail₂ := tail_of_writes (fits_of_le (by omega) (by omega)) hout₂ hborder₂
  have htail₃ := tail_of_writes (fits_of_le (by omega) (by omega)) hout₃ hborder₃
  rw [hline₂, hcolumn₂, hline, hcolumn] at hborder₂
  have hstart : SameBoard g₁.lineSize g₁.columnSize (g₂.hist 0)
      (g₁.hist g₁.numberOfGenerations) := by
    rw [Game.hist, hbefore₂]
    exact hsame
  have hsame₂ := sameBoard_hist (hline₂.trans hline) (hcolumn₂.trans hcolumn) hborder hborder₂
    hstart g₂.numberOfGenerations
  have hhist₃ := hist_eq_of_before (hline₃.trans hline₁.symm) (hcolumn₃.trans hcolumn₁.symm)
    (hbefore₃.trans hbefore₁.symm) g₃.numberOfGenerations
  rw [hline₂, hcolumn₂, hline, hcolumn, hline₁] at htail₂
  rw [hline₃, hcolumn₃, hhist₃, hgen, ← hcolumn₁, ← hline₁] at htail₃
  rw [htail₂, ← hline₁, htail₃]
  exact matrixText_congr hsame₂

/-- A game that does not deadlock has a complete run. -/
theorem exists_writes (hfits : Fits g.lineSize g.columnSize) (h : ¬ g.SettlesLast)
    (o : Options) (blank : Msg) : ∃ out, g.Writes o out := by
  have hstart : Transition.run next [] (g.startTerminal o blank []) = some _ := rfl
  obtain ⟨schedule, s, hrun, hstuck⟩ := exists_complete hstart
  have hs := Transition.Reachable.of_run _ Relation.ReflTransGen.refl hrun
  rcases main_of_stuck hfits hs hstuck with ⟨cGen, al, hl⟩ | ⟨hlast, -⟩
  · exact ⟨_, blank, [], s, cGen, al, hs, hl, rfl⟩
  · exact absurd hlast h

section Example

/-- The board of `hook` after two generations, as it has been written and read back. -/
def savedHook : Board where
  lineSize := 3
  columnSize := 2
  before := store (store (store (store (store (store (fun _ => 0) 0 0 0) 0 1 0) 1 0 1) 1 1 1)
    2 0 1) 2 1 1

def resumedHook : Game := { hookThree with before := savedHook.before }

/-- Two generations of `hook` and then three, of which only one is played, end as five. -/
theorem resumed_same_answer_hook :
    ∃ out out₂ out₃, hookTwo.Writes ⟨false, false⟩ out ∧
      reader (tail 3 out) = some savedHook ∧ resumedHook.Writes ⟨true, false⟩ out₂ ∧
      hookFive.Writes ⟨true, true⟩ out₃ ∧ tail 3 out₂ = tail 3 out₃ := by
  have htwo : ¬ hookTwo.Settled 2 := by decide +kernel
  have hone : resumedHook.Settled 1 := by decide +kernel
  have hthree : hookFive.Settled 3 := by decide +kernel
  obtain ⟨out, hout⟩ := exists_writes (by decide : Fits 3 2)
    (fun hlast : hookTwo.SettlesLast => htwo hlast.2.1.2) ⟨false, false⟩ (hookTwo.uninit 0 0)
  obtain ⟨out₂, hout₂⟩ := exists_writes (by decide : Fits 3 2)
    (fun hlast : resumedHook.SettlesLast =>
      absurd (hlast.2.2 ⟨le_refl 1, hone⟩ : 3 ≤ 1) (by decide))
    ⟨true, false⟩ (hookTwo.uninit 0 0)
  obtain ⟨out₃, hout₃⟩ := exists_writes (by decide : Fits 3 2)
    (fun hlast : hookFive.SettlesLast =>
      absurd (hlast.2.2 ⟨Nat.le_add_left 1 2, hthree⟩ : 5 ≤ 3) (by decide))
    ⟨true, true⟩ (hookTwo.uninit 0 0)
  have hplays : hookTwo.Plays ⟨3, 2, hookTwo.before⟩ := ⟨rfl, rfl, rfl⟩
  have hclear : ClearOutside 3 2 hookTwo.before := by
    intro line column _ _ hout
    refine if_neg fun hlive => hout ?_
    simp only [maxGrid] at hlive
    omega
  have htail := tail_of_writes (by decide) hout (borderZero_hist hplays (by decide) (by decide)
    hclear)
  have hread : reader (tail 3 out) = some savedHook := by
    have htext : matrixText 3 2 (hookTwo.hist 2) = ascii "0 0 \n1 1 \n1 1 \n" := by
      decide +kernel
    change tail 3 out = matrixText 3 2 (hookTwo.hist 2) at htail
    rw [htail, htext]
    rfl
  have hint : ∀ i j : ℕ, i < 3 → j < 2 → IsInt (cell hookTwo.before i j) := by
    intro i j _ _
    simp only [cell, hookTwo, hook]
    split <;> simp [IsInt]
  obtain ⟨b, hread', -, -, hall⟩ := resumed_same_answer hplays (by decide) (by decide) hclear
    hint hout
  obtain rfl := Option.some.inj (hread.symm.trans hread')
  exact ⟨out, out₂, out₃, hout, hread, hout₂, hout₃, hall resumedHook hookFive _ _
    out₂ out₃ ⟨rfl, rfl, rfl⟩ ⟨rfl, rfl, rfl⟩ rfl hout₂ hout₃⟩

end Example

end Games

end Life

end OperatingSystems
