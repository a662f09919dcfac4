import Mathlib.Order.Bounds.Basic
import OperatingSystems.Life.GridSteps

/-!
# The threaded game is the sequential game

When `main` prints, `cGen` is the number of generations the sequential game
would have played, and `after` holds the board it would have ended with,
whatever the number of workers and the order of their steps.
-/

namespace OperatingSystems

namespace Life

open OperatingSystems.Thread

variable {g : Game}

/-- The number of generations of the sequential game: all of them, or as many as
it takes to settle. -/
def Game.Ends (g : Game) (n : ℕ) : Prop :=
  IsLeast ({g.numberOfGenerations} ∪ {k | 1 ≤ k ∧ g.Settled k}) n

theorem Game.ends_of_unsettled {n : ℕ} (hn : 1 ≤ n) (hnG : n ≤ g.numberOfGenerations)
    (h : g.Unsettled (n - 1)) (hlast : g.Settled n ∨ n = g.numberOfGenerations) : g.Ends n := by
  refine ⟨?_, ?_⟩
  · rcases hlast with hs | rfl
    · exact .inr ⟨hn, hs⟩
    · exact .inl rfl
  · rintro k (rfl | ⟨hk, hs⟩)
    · exact hnG
    · by_contra hlt
      exact h k hk (by omega) hs

/-- The generation after which `main` leaves its loop. -/
theorem Game.ends_of_stop {n allDoneCounter : ℕ} (hn : 1 ≤ n) (hnG : n ≤ g.numberOfGenerations)
    (hal : allDoneCounter = 0 ∨
      allDoneCounter = g.numberOfThreads ∧ n = g.numberOfGenerations)
    (h : g.Unsettled (n - 1)) (hsettled : allDoneCounter = 0 ↔ g.Settled n) : g.Ends n := by
  refine Game.ends_of_unsettled hn hnG h ?_
  rcases hal with hal | ⟨-, hlast⟩
  · exact .inl (hsettled.mp hal)
  · exact .inr hlast

theorem exclusive_start (g : Game) (blank : Msg) : Exclusive (g.start blank) :=
  exclusive_initial g.program _ _ _ _ _

/-- The control point of `main` in a state of the semaphore machine that is not
inside a receive. -/
theorem abstract_main {s : State g.program} {l : MainLoc} (h : s.loc .main = l)
    (hrecv : ∀ b k, mainCode g l ≠ .recv b k) : (view (abstract s)).main = l := by
  subst h
  exact abstractLoc_of_not_recv (P := g.program) hrecv

/-- Whenever `main` prints, it prints the number of generations of the
sequential game and the board after that many generations. -/
theorem threaded_refines_sequential (hfits : Fits g.lineSize g.columnSize) {blank : Msg}
    {s : State g.program} (hs : Transition.Reachable next (g.start blank) s)
    {cGen allDoneCounter i j : ℕ}
    (hprint : s.loc .main = MainLoc.print cGen allDoneCounter i j) :
    g.Ends cGen ∧ SameBoard g.lineSize g.columnSize s.mem.after
      ((generation g.lineSize g.columnSize)^[cGen] g.before) := by
  have hexcl := exclusive_start g blank
  have ha := abstract_reachable hexcl hs
  have hinv := inv_of_reachable ha
  have hmemo := memo_of_reachable hfits ha
  have hmain : (view (abstract s)).main = .print cGen allDoneCounter i j :=
    abstract_main hprint (mainCode_ne_recv (by simp))
  have hok := hinv.flow.mainOk
  have hboards := hmemo.boards
  rw [hmain] at hok hboards
  obtain ⟨hc, hcG, hal⟩ := hok
  obtain ⟨hunsettled, hafter, hsettled⟩ := hboards
  exact ⟨Game.ends_of_stop hc hcG hal hunsettled hsettled, hafter⟩

/-- Four of six cells live, and two workers. The board settles in its third generation. -/
def hook (numberOfGenerations : ℕ) (h : 1 ≤ numberOfGenerations) : Game where
  lineSize := 3
  columnSize := 2
  numberOfGenerations := numberOfGenerations
  numberOfThreads := 2
  before := fun k => if k = 1 ∨ k = 41 ∨ k = 80 ∨ k = 81 then 1 else 0
  uninit := fun _ _ => { iFrom := 0, type := .range, value1 := 0, value2 := 0 }
  lineSize_le := by decide
  columnSize_le := by decide
  one_le_generations := h
  one_le_threads := Nat.two_pos
  threads_le_max := by decide
  threads_le_lines := by decide

def hookFive : Game := hook 5 (by decide)

/-- `main` creates the workers of `hook`, and sends them their lines and the first GO. -/
def hookStart : List ThreadId :=
  List.replicate 9 .main ++ List.replicate 3 (.worker 1) ++ List.replicate 3 (.worker 2) ++
    List.replicate 7 .main

/-- The workers of `hook` compute a generation. -/
def hookRound : List ThreadId :=
  List.replicate 28 (.worker 1) ++ List.replicate 46 (.worker 2) ++ List.replicate 3 .main ++
    List.replicate 3 (.worker 2)

/-- Three generations, after which `main` goes on to print. -/
def hookSchedule : List ThreadId :=
  hookStart ++ hookRound ++ List.replicate 41 .main ++ hookRound ++ List.replicate 41 .main ++
    hookRound ++ List.replicate 31 .main

theorem threaded_refines_sequential_hook :
    ∃ s, Transition.run next hookSchedule (hookFive.start (hookFive.uninit 0 0)) = some s ∧
      s.loc .main = MainLoc.print 3 0 0 0 ∧ hookFive.Ends 3 ∧
      SameBoard 3 2 s.mem.after ((generation 3 2)^[3] hookFive.before) := by
  have hrun : (Transition.run next hookSchedule (hookFive.start (hookFive.uninit 0 0))).map
      (fun s => s.loc .main) = some (MainLoc.print 3 0 0 0) := by decide +kernel
  obtain ⟨s, hs, hreach, hprint⟩ := Transition.exists_of_run_map hrun
  obtain ⟨hends, hafter⟩ := threaded_refines_sequential (by decide) hreach hprint
  exact ⟨s, hs, hprint, hends, hafter⟩

/-- Forty rows, of which the first, the second and the last hold live cells, for two
workers and one generation. -/
def fortyRows : Game where
  lineSize := 40
  columnSize := 2
  numberOfGenerations := 1
  numberOfThreads := 2
  before := fun k => if k = 0 ∨ k = 1 ∨ k = 40 ∨ k = 41 ∨ k = 1560 then 1 else 0
  uninit := fun _ _ => { iFrom := 0, type := .range, value1 := 0, value2 := 0 }
  lineSize_le := le_refl 40
  columnSize_le := by decide
  one_le_generations := Nat.one_pos
  one_le_threads := Nat.two_pos
  threads_le_max := by decide
  threads_le_lines := by decide

/-- One worker computes its twenty rows before the other begins. -/
def fortySchedule (first second : ℕ) : List ThreadId :=
  List.replicate 9 .main ++ List.replicate 3 (.worker first) ++
    List.replicate 3 (.worker second) ++ List.replicate 7 .main ++
    List.replicate 431 (.worker first) ++ List.replicate 424 (.worker second) ++
    List.replicate 3 .main ++ List.replicate 12 (.worker second) ++ List.replicate 374 .main ++
    List.replicate 5 (.worker first) ++ List.replicate 3 .main ++
    List.replicate 4 (.worker second) ++ List.replicate 4 .main

/-- Below the last of forty rows a worker finds the first row of `after`, so whether the
last row lives on depends on which worker comes first. No function of `before` tells what
is printed. -/
theorem not_refines_fortyRows :
    ¬ ∃ F : Grid → Grid, ∀ s, Transition.Reachable next
        (fortyRows.start (fortyRows.uninit 0 0)) s → ∀ cGen allDoneCounter i j,
      s.loc .main = MainLoc.print cGen allDoneCounter i j →
        SameBoard fortyRows.lineSize fortyRows.columnSize s.mem.after
          (F^[cGen] fortyRows.before) := by
  rintro ⟨F, hF⟩
  have hone : (Transition.run next (fortySchedule 1 2)
      (fortyRows.start (fortyRows.uninit 0 0))).map
        (fun s => (s.loc .main, cell s.mem.after 39 0)) = some (MainLoc.print 1 2 0 0, 1) := by
    decide +kernel
  have htwo : (Transition.run next (fortySchedule 2 1)
      (fortyRows.start (fortyRows.uninit 0 0))).map
        (fun s => (s.loc .main, cell s.mem.after 39 0)) = some (MainLoc.print 1 2 0 0, 0) := by
    decide +kernel
  obtain ⟨s, -, hs, hend⟩ := Transition.exists_of_run_map hone
  obtain ⟨s', -, hs', hend'⟩ := Transition.exists_of_run_map htwo
  obtain ⟨hprint, hlive⟩ := Prod.mk.inj hend
  obtain ⟨hprint', hdead⟩ := Prod.mk.inj hend'
  have hcell := hF s hs 1 2 0 0 hprint 39 0 (by decide) (by decide)
  have hcell' := hF s' hs' 1 2 0 0 hprint' 39 0 (by decide) (by decide)
  have hsame := (hlive.symm.trans hcell).trans (hcell'.symm.trans hdead)
  exact absurd hsame (by decide)

end Life

end OperatingSystems
