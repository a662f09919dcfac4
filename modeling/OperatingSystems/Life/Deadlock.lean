import Mathlib.Tactic.IntervalCases
import OperatingSystems.Life.Blocked
import OperatingSystems.Life.Refinement
import OperatingSystems.Life.Stopping
import OperatingSystems.Life.Termination

/-!
# When life deadlocks

A stop at the last generation finds the workers past their loops. Nobody reads
the STOP messages, nobody takes the ALLDONE messages out of mailbox 0, and only
one of them fits. So with two workers or more `main` waits forever for one of
them to end, and this is the only deadlock.
-/

namespace OperatingSystems

namespace Life

open OperatingSystems.Thread OperatingSystems.Mailbox

variable {g : Game}

section Runs

variable {blank : Msg}

/-- No state that is reached before `main` has joined all workers is without an
enabled step. -/
def DeadlockFree (g : Game) (blank : Msg) : Prop :=
  ∀ s, Transition.Reachable next (g.start blank) s →
    (∀ cGen al, s.loc .main ≠ MainLoc.finished cGen al) → ∃ t s', next t s = some s'

/-- A reachable state without enabled steps is a deadlock of the atomic machine. -/
theorem blocked_of_stuck {s : State g.program} (hs : Transition.Reachable next (g.start blank) s)
    (hstuck : Transition.Stuck next s)
    (hmain : ∀ cGen al, s.loc .main ≠ MainLoc.finished cGen al) :
    Blocked g (view (abstract s)) := by
  have hexcl := (exclusive_start g blank).of_reachable hs
  have hinv := inv_of_reachable (abstract_reachable (exclusive_start g blank) hs)
  have hatomic := stuck_abstract hexcl hstuck
  have hrun : (view (abstract s)).status .main = .running := by
    refine hinv.lives.main.resolve_right ?_
    rintro ⟨-, cGen, al, hfin⟩
    have hloc : abstractLoc s .main = MainLoc.finished cGen al := hfin
    by_cases hp : s.phase .main = .entry
    · rw [abstractLoc_of_entry hp] at hloc
      exact hmain cGen al hloc
    · -- a thread that has ended is inside no mailbox
      obtain ⟨hrunning, -⟩ := hexcl.inside .main hp
      exact hp (phase_entry_of_stuck hexcl hstuck ⟨hinv.lives.aborted, hrunning⟩)
  exact ⟨hinv, mainBlocked_of_stuck hatomic hinv.lives.aborted hrun,
    fun i hi => workerBlocked_of_stuck hatomic hinv.lives.aborted hi⟩

/-- With two workers or more `main` never ends after a stop at the last generation. -/
theorem not_finished_of_stopped {s : View} (hinv : Inv g s) (hT : 2 ≤ g.numberOfThreads) :
    s.main ≠ .finished g.numberOfGenerations 0 := by
  intro hm
  have hparent := hinv.flow.parent
  rw [hm] at hparent
  have hsent : ∀ i ∈ g.workers, g.numberOfGenerations + 1 ≤ (s.worker i).sent := by
    intro i hi
    obtain ⟨hi1, hiT⟩ := Game.mem_workers.mp hi
    have hexit := hinv.lives.joined i hi1 (by rw [hm]; exact Nat.lt_succ_of_le hiT)
    have hok := hinv.flow.workerOk i hi
    have hgen := hok.one_le_gen
    have hloop := hok.inLoop
    have hpast := hok.pastLoop
    have hfloor := hinv.flow.floor i hi
    rw [hm] at hfloor
    change g.numberOfGenerations ≤ _ at hfloor
    rcases hinv.lives.ended i hexit with hend | hhalt
    · have hin := WorkerLoc.inBarrier_of_counted (WorkerLoc.counted_of_passed
        (WorkerLoc.passed_of_ended (by omega : (s.worker i).ended ≠ 0)))
      have := hpast hin
      simp only [WorkerLoc.sent]
      omega
    · have hin : (s.worker i).inBarrier = 0 ∧ (s.worker i).ended = 0 := by
        cases hw : s.worker i <;> simp_all [WorkerLoc.halted, WorkerLoc.inBarrier,
          WorkerLoc.counted, WorkerLoc.ended]
      have := hloop hin.1
      simp only [WorkerLoc.sent, hin.2] at hfloor
      omega
  have hsum := le_total_of_forall hsent
  have hfull : full (s.box 0) ≤ 1 := by cases s.box 0 <;> simp
  have hcoll : MainLoc.collected g (.finished g.numberOfGenerations 0) =
    g.numberOfGenerations * g.numberOfThreads + 0 := rfl
  rw [hparent, hcoll, Nat.mul_succ, Nat.mul_comm g.numberOfThreads] at hsum
  omega

/-- A board that settles at the last generation and not before stops `main` there. -/
theorem finished_last {s : View} (hinv : Inv g s) (hmemo : Memo g s)
    (hleast : IsLeast {n | 1 ≤ n ∧ g.Settled n} g.numberOfGenerations) {cGen al : ℕ}
    (hm : s.main = .finished cGen al) : cGen = g.numberOfGenerations ∧ al = 0 := by
  have hok := hinv.flow.mainOk
  have hboards := hmemo.boards
  rw [hm] at hok hboards
  obtain ⟨hc, hcG, hal⟩ := hok
  obtain ⟨-, -, hsettled⟩ := hboards
  have hzero : al = 0 := by
    rcases hal with hal | ⟨-, rfl⟩
    · exact hal
    · exact hsettled.mpr hleast.1.2
  exact ⟨le_antisymm hcG (hleast.2 ⟨hc, hsettled.mp hzero⟩), hzero⟩

theorem not_finished {s : View} (hinv : Inv g s) (hmemo : Memo g s)
    (hT : 2 ≤ g.numberOfThreads)
    (hleast : IsLeast {n | 1 ≤ n ∧ g.Settled n} g.numberOfGenerations) (cGen al : ℕ) :
    s.main ≠ .finished cGen al := by
  intro hm
  obtain ⟨rfl, rfl⟩ := finished_last hinv hmemo hleast hm
  exact not_finished_of_stopped hinv hT hm

/-- In a deadlock `main` has stopped at the last generation, and joins the workers. -/
theorem join_of_blocked {s : View} (h : Blocked g s) :
    2 ≤ g.numberOfThreads ∧ ∃ i, s.main = .join g.numberOfGenerations 0 i := by
  have hb := h.main
  unfold MainBlocked at hb
  rcases mainCode_cases g s.main with ⟨b, m, l, hi⟩ | ⟨b, l, hi⟩ | ⟨f, hi⟩ | ⟨u, l, hi⟩ |
    ⟨u, l, hi⟩ | hi
  · exact (h.not_send hi).elim
  · exact (h.not_recv hi).elim
  · simp [hi] at hb
  · simp [hi] at hb
  · exact h.join hi
  · simp [hi] at hb

/-- On a board that fits a deadlock comes from settling at the last generation. -/
theorem settles_last_of_blocked {s : View} (h : Blocked g s) (hm : Memo g s) :
    2 ≤ g.numberOfThreads ∧ IsLeast {n | 1 ≤ n ∧ g.Settled n} g.numberOfGenerations := by
  obtain ⟨hT, n, hmain⟩ := join_of_blocked h
  have hboards := hm.boards
  rw [hmain] at hboards
  exact ⟨hT, hboards.1.isLeast g.one_le_generations (hboards.2.2.mp rfl)⟩

/-- Some run comes to the tests of the last generation with a board that stops it: all
zero, or as it was before. -/
def Game.StopsLast (g : Game) (blank : Msg) : Prop :=
  ∃ s, Transition.Reachable next (g.start blank) s ∧
    (∃ al, s.loc .main = MainLoc.isAllZero g.numberOfGenerations al 0 0 true) ∧ g.Stops s.mem

/-- A run whose last tests have stopped it. -/
theorem stopsLast_of_stopping {a : Atomic g.program}
    (ha : Transition.Reachable atomicNext (g.init blank) a)
    (hl : (view a).main.Stopping g.numberOfGenerations) (hstops : g.Stops (view a).mem) :
    g.StopsLast blank := by
  obtain ⟨a₀, ha₀, hmain, hsame⟩ := exists_tests_of_stopping ha hl
  obtain ⟨s, hs, hq, rfl⟩ :=
    exists_reachable_of_atomic (exclusive_start g blank) (fun _ => rfl) ha₀
  refine ⟨s, hs, ⟨0, (abstractLoc_of_entry (hq .main)).symm.trans hmain⟩, ?_⟩
  exact hstops.congr ⟨hsame.1.symm, hsame.2.symm⟩

/-- With two workers or more a stop at the last generation leads to a deadlock. -/
theorem exists_deadlock (hT : 2 ≤ g.numberOfThreads) (h : g.StopsLast blank) :
    ∃ s, Transition.Reachable next (g.start blank) s ∧ Transition.Stuck next s ∧
      ∀ cGen al, s.loc .main ≠ MainLoc.finished cGen al := by
  obtain ⟨s₀, hs₀, ⟨al, hl⟩, hstops⟩ := h
  have ha₀ := abstract_reachable (exclusive_start g blank) hs₀
  have hmain : (view (abstract s₀)).main = .isAllZero g.numberOfGenerations al 0 0 true :=
    abstract_main hl (mainCode_ne_recv (by simp))
  have hok := (inv_of_reachable ha₀).flow.mainOk
  rw [hmain] at hok
  obtain ⟨a, ha, hstuck⟩ := exists_stuck_of_reachable ha₀
  have hstopping := stopping_of_reachable ha₀ ha (by rw [hmain]; exact ⟨rfl, hok.2.2⟩) hstops
  obtain ⟨s, hs, hq, rfl⟩ :=
    exists_reachable_of_atomic (exclusive_start g blank) (fun _ => rfl) (ha₀.trans ha)
  have hexcl := (exclusive_start g blank).of_reachable hs
  refine ⟨s, hs, stuck_of_abstract hexcl hq hstuck, fun cGen al hfin => ?_⟩
  have hend : (view (abstract s)).main = .finished cGen al :=
    (abstractLoc_of_entry (hq .main)).trans hfin
  rw [hend] at hstopping
  obtain ⟨rfl, rfl⟩ := hstopping
  exact not_finished_of_stopped (inv_of_reachable (ha₀.trans ha)) hT hend

/-- Every deadlock comes from a stop at the last generation. -/
theorem stopsLast_of_stuck {s : State g.program}
    (hs : Transition.Reachable next (g.start blank) s) (hstuck : Transition.Stuck next s)
    (hmain : ∀ cGen al, s.loc .main ≠ MainLoc.finished cGen al) :
    2 ≤ g.numberOfThreads ∧ g.StopsLast blank := by
  obtain ⟨hT, i, hjoin⟩ := join_of_blocked (blocked_of_stuck hs hstuck hmain)
  have ha := abstract_reachable (exclusive_start g blank) hs
  have htested := tested_of_reachable ha
  rw [hjoin] at htested
  exact ⟨hT, stopsLast_of_stopping ha (by rw [hjoin]; exact ⟨rfl, rfl⟩) (htested rfl)⟩

/-- On a board that fits, whether the last tests stop a run is known from the sequential
game. -/
theorem stopsLast_iff (hfits : Fits g.lineSize g.columnSize) (blank : Msg) :
    g.StopsLast blank ↔ IsLeast {n | 1 ≤ n ∧ g.Settled n} g.numberOfGenerations := by
  constructor
  · rintro ⟨s, hs, ⟨al, hl⟩, hstops⟩
    have ha := abstract_reachable (exclusive_start g blank) hs
    have hboards := (memo_of_reachable hfits ha).boards
    rw [abstract_main hl (mainCode_ne_recv (by simp))] at hboards
    obtain ⟨hbefore, hunsettled, hafter, -⟩ := hboards
    refine hunsettled.isLeast g.one_le_generations ?_
    rcases hstops with hzero | hsame
    · exact .inl fun i j hi hj => (hafter i j hi hj).symm.trans (hzero i j hi hj)
    · refine .inr fun i j hi hj => (hafter i j hi hj).symm.trans ?_
      rw [← hbefore]
      exact hsame i j hi hj
  · intro hleast
    have hstart : Transition.Reachable atomicNext (g.init blank) (g.init blank) :=
      Relation.ReflTransGen.refl
    obtain ⟨a, ha, hstuck⟩ := exists_stuck_of_reachable hstart
    obtain ⟨s, hs, hq, rfl⟩ :=
      exists_reachable_of_atomic (exclusive_start g blank) (fun _ => rfl) ha
    have hexcl := (exclusive_start g blank).of_reachable hs
    by_cases hmain : ∀ cGen al, s.loc .main ≠ MainLoc.finished cGen al
    · exact (stopsLast_of_stuck hs (stuck_of_abstract hexcl hq hstuck) hmain).2
    · simp only [not_forall, not_not] at hmain
      obtain ⟨cGen, al, hfin⟩ := hmain
      have hend : (view (abstract s)).main = .finished cGen al :=
        (abstractLoc_of_entry (hq .main)).trans hfin
      obtain ⟨rfl, rfl⟩ :=
        finished_last (inv_of_reachable ha) (memo_of_reachable hfits ha) hleast hend
      have htested := tested_of_reachable ha
      rw [hend] at htested
      exact stopsLast_of_stopping ha (by rw [hend]; exact ⟨rfl, rfl⟩) (htested rfl)

theorem deadlockFree_iff_stopsLast (g : Game) (blank : Msg) :
    DeadlockFree g blank ↔ ¬ (2 ≤ g.numberOfThreads ∧ g.StopsLast blank) := by
  constructor
  · rintro hfree ⟨hT, hlast⟩
    obtain ⟨s, hs, hstuck, hmain⟩ := exists_deadlock hT hlast
    obtain ⟨t, s', hnext⟩ := hfree s hs hmain
    rw [hstuck t] at hnext
    contradiction
  · intro hnot s hs hmain
    by_contra hstuck
    have hstuck : Transition.Stuck next s := by
      intro t
      cases hnext : next t s with
      | none => rfl
      | some s' => exact absurd ⟨t, s', hnext⟩ hstuck
    exact hnot (stopsLast_of_stuck hs hstuck hmain)

/-- Life is free of deadlocks exactly when it is not the case that there are two workers
or more and the tests of the last generation stop some run. On a board that fits they
do so exactly when the sequential game settles at the last generation and not before. -/
theorem deadlockFree_iff (g : Game) (blank : Msg) :
    (DeadlockFree g blank ↔ ¬ (2 ≤ g.numberOfThreads ∧ g.StopsLast blank)) ∧
      (Fits g.lineSize g.columnSize → (DeadlockFree g blank ↔ ¬ (2 ≤ g.numberOfThreads ∧
        IsLeast {n | 1 ≤ n ∧ g.Settled n} g.numberOfGenerations))) := by
  refine ⟨deadlockFree_iff_stopsLast g blank, fun hfits => ?_⟩
  rw [deadlockFree_iff_stopsLast, stopsLast_iff hfits]

def hookThree : Game := hook 3 (by decide)

theorem isLeast_hook (numberOfGenerations : ℕ) (h : 1 ≤ numberOfGenerations) :
    IsLeast {n | 1 ≤ n ∧ (hook numberOfGenerations h).Settled n} 3 := by
  have hone : ¬ hookThree.Settled 1 := by decide +kernel
  have htwo : ¬ hookThree.Settled 2 := by decide +kernel
  have hthree : hookThree.Settled 3 := by decide +kernel
  refine Game.Unsettled.isLeast (fun n hn hle => ?_) (by decide) hthree
  interval_cases n
  · exact hone
  · exact htwo

/-- `hook` deadlocks after three generations, and does not when five are asked for. -/
theorem deadlockFree_iff_hook :
    ¬ DeadlockFree hookThree (hookThree.uninit 0 0) ∧
      DeadlockFree hookFive (hookFive.uninit 0 0) := by
  have hthree := (deadlockFree_iff hookThree (hookThree.uninit 0 0)).2 (by decide)
  have hfive := (deadlockFree_iff hookFive (hookFive.uninit 0 0)).2 (by decide)
  constructor
  · rw [hthree, not_not]
    exact ⟨le_refl 2, isLeast_hook 3 _⟩
  · refine hfive.mpr fun hlast => ?_
    have heq := hlast.2.unique (isLeast_hook 5 _)
    exact absurd heq (by decide)

/-- Two empty rows, two workers and one generation. -/
def twoRows : Game where
  lineSize := 2
  columnSize := 1
  numberOfGenerations := 1
  numberOfThreads := 2
  before := fun _ => 0
  uninit := fun _ _ => { iFrom := 0, type := .range, value1 := 0, value2 := 0 }
  lineSize_le := hookThree.columnSize_le
  columnSize_le := Nat.succ_le_of_lt (by decide)
  one_le_generations := Nat.one_pos
  one_le_threads := Nat.two_pos
  threads_le_max := hookThree.threads_le_max
  threads_le_lines := by decide

theorem twoRows_settled : twoRows.Settled 1 := by
  refine .inl fun i j hi hj => ?_
  have hi' : i < 2 := hi
  have hj' : j < 1 := hj
  interval_cases i <;> interval_cases j <;> decide

/-- With two workers an empty board deadlocks at its first and last generation. -/
theorem not_deadlockFree_twoRows : ¬ DeadlockFree twoRows (twoRows.uninit 0 0) := by
  intro hfree
  have hleast : IsLeast {n | 1 ≤ n ∧ twoRows.Settled n} twoRows.numberOfGenerations :=
    ⟨⟨le_refl _, twoRows_settled⟩, fun n hn => hn.1⟩
  obtain ⟨s, hs, hstuck, hmain⟩ :=
    exists_deadlock (le_refl 2) ((stopsLast_iff (by decide) (twoRows.uninit 0 0)).mpr hleast)
  obtain ⟨t, s', hnext⟩ := hfree s hs hmain
  rw [hstuck t] at hnext
  contradiction

end Runs

end Life

end OperatingSystems
