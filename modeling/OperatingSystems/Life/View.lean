import OperatingSystems.Life.Threads
import OperatingSystems.Thread.Refinement

/-!
# What one step of life can do

`view` lists the parts of an atomic state under their own names. `MainMove` and
`WorkerMove` say what a step of `main` and of a worker changes, by the kind of
the instruction; `move_of_step` derives them from the machine once, and the
invariants below are proved from them. `MainBlocked` and `WorkerBlocked` say why
a thread that runs has no step.
-/

namespace OperatingSystems

namespace Life

open OperatingSystems.Thread

/-- The parts of an atomic state. -/
structure View where
  main : MainLoc
  worker : ℕ → WorkerLoc
  box : ℕ → Option Msg
  genDoneSem : ℕ
  allDoneSem : ℕ
  mem : Memory
  status : ThreadId → Status
  aborted : Bool

variable {g : Game}

def view (a : Atomic g.program) : View where
  main := a.loc .main
  worker := fun i => a.loc (.worker i)
  box := a.box
  genDoneSem := a.sem .genDoneSem
  allDoneSem := a.sem .allDoneSem
  mem := a.mem
  status := a.status
  aborted := a.aborted

/-- The steps of `main`. -/
inductive MainMove (g : Game) (s : View) : View → Prop
  | send (b : ℕ) (m : Msg) (l : MainLoc) :
      mainCode g s.main = .send b m l → s.box b = none →
      MainMove g s { s with main := l, box := Function.update s.box b (some m) }
  | recv (b : ℕ) (l : Msg → MainLoc) (m : Msg) :
      mainCode g s.main = .recv b l → s.box b = some m →
      MainMove g s { s with main := l m, box := Function.update s.box b none }
  | access (f : Memory → Memory × MainLoc) :
      mainCode g s.main = .access f →
      MainMove g s { s with main := (f s.mem).2, mem := (f s.mem).1 }
  | create (u : ThreadId) (l : MainLoc) :
      mainCode g s.main = .create u l →
      MainMove g s { s with main := l, status := Function.update s.status u .running }
  | join (u : ThreadId) (l : MainLoc) :
      mainCode g s.main = .join u l → s.status u = .exited →
      MainMove g s { s with main := l }
  | exit :
      mainCode g s.main = .exit →
      MainMove g s { s with status := Function.update s.status .main .exited }

/-- The steps of worker `i`. -/
inductive WorkerMove (g : Game) (i : ℕ) (s : View) : View → Prop
  | send (b : ℕ) (m : Msg) (l : WorkerLoc) :
      linesthread g i (s.worker i) = .send b m l → s.box b = none →
      WorkerMove g i s { s with
        worker := Function.update s.worker i l
        box := Function.update s.box b (some m) }
  | recv (b : ℕ) (l : Msg → WorkerLoc) (m : Msg) :
      linesthread g i (s.worker i) = .recv b l → s.box b = some m →
      WorkerMove g i s { s with
        worker := Function.update s.worker i (l m)
        box := Function.update s.box b none }
  | waitGenDone (l : WorkerLoc) :
      linesthread g i (s.worker i) = .wait .genDoneSem l → s.genDoneSem ≠ 0 →
      WorkerMove g i s { s with
        worker := Function.update s.worker i l
        genDoneSem := s.genDoneSem - 1 }
  | waitAllDone (l : WorkerLoc) :
      linesthread g i (s.worker i) = .wait .allDoneSem l → s.allDoneSem ≠ 0 →
      WorkerMove g i s { s with
        worker := Function.update s.worker i l
        allDoneSem := s.allDoneSem - 1 }
  | postGenDone (l : WorkerLoc) :
      linesthread g i (s.worker i) = .post .genDoneSem l →
      WorkerMove g i s { s with
        worker := Function.update s.worker i l
        genDoneSem := s.genDoneSem + 1 }
  | postAllDone (l : WorkerLoc) :
      linesthread g i (s.worker i) = .post .allDoneSem l →
      WorkerMove g i s { s with
        worker := Function.update s.worker i l
        allDoneSem := s.allDoneSem + 1 }
  | access (f : Memory → Memory × WorkerLoc) :
      linesthread g i (s.worker i) = .access f →
      WorkerMove g i s { s with
        worker := Function.update s.worker i (f s.mem).2
        mem := (f s.mem).1 }
  | exit :
      linesthread g i (s.worker i) = .exit →
      WorkerMove g i s { s with status := Function.update s.status (.worker i) .exited }
  | abort :
      linesthread g i (s.worker i) = .abort →
      WorkerMove g i s { s with aborted := true }

theorem main_of_workerMove {g : Game} {i : ℕ} {s s' : View} (hmove : WorkerMove g i s s') :
    s'.main = s.main := by
  cases hmove <;> rfl

/-- `main` waits for a mailbox or for a worker. -/
def MainBlocked (g : Game) (s : View) : Prop :=
  match mainCode g s.main with
  | .send b _ _ => s.box b ≠ none
  | .recv b _ => s.box b = none
  | .join u _ => s.status u ≠ .exited
  | _ => False

/-- Worker `i` waits for a mailbox or for a semaphore of the barrier. -/
def WorkerBlocked (g : Game) (i : ℕ) (s : View) : Prop :=
  match linesthread g i (s.worker i) with
  | .send b _ _ => s.box b ≠ none
  | .recv b _ => s.box b = none
  | .wait .genDoneSem _ => s.genDoneSem = 0
  | .wait .allDoneSem _ => s.allDoneSem = 0
  | _ => False

/-- `main` runs none of the barrier's instructions and never ends the process. -/
theorem mainCode_cases (g : Game) (l : MainLoc) :
    (∃ b m l', mainCode g l = .send b m l') ∨ (∃ b l', mainCode g l = .recv b l') ∨
      (∃ f, mainCode g l = .access f) ∨ (∃ u l', mainCode g l = .create u l') ∨
      (∃ u l', mainCode g l = .join u l') ∨ mainCode g l = .exit := by
  cases l <;> simp only [mainCode] <;> (repeat' split) <;> simp

/-- `main` receives only where it collects. -/
theorem mainCode_ne_recv {g : Game} {l : MainLoc}
    (hl : ∀ cGen allDoneCounter i, l ≠ .collect cGen allDoneCounter i) (b : ℕ)
    (k : Msg → MainLoc) : mainCode g l ≠ .recv b k := by
  cases l with
  | collect cGen al i => exact absurd rfl (hl cGen al i)
  | _ =>
      simp only [mainCode]
      (repeat' split) <;> simp

/-- A worker neither creates nor joins threads. -/
theorem linesthread_cases (g : Game) (i : ℕ) (l : WorkerLoc) :
    (∃ b m l', linesthread g i l = .send b m l') ∨ (∃ b l', linesthread g i l = .recv b l') ∨
      (∃ q l', linesthread g i l = .wait q l') ∨ (∃ q l', linesthread g i l = .post q l') ∨
      (∃ f, linesthread g i l = .access f) ∨ linesthread g i l = .exit ∨
      linesthread g i l = .abort := by
  cases l <;> simp only [linesthread] <;> (repeat' split) <;> simp

/-- Every atomic step of `main` is one of its moves. -/
theorem mainMove_of_step {a a' : Atomic g.program} (h : AtomicMove a .main a') :
    MainMove g (view a) (view a') := by
  cases h with
  | send b m l hi hb =>
      have hm : MainMove g (view a) _ := .send b m l hi hb
      convert hm using 1
      simp [view, Core.goto]
  | recv b l m hi hb =>
      have hm : MainMove g (view a) _ := .recv b l m hi hb
      convert hm using 1
      simp [view, Core.goto]
  | core c hc =>
      have hcode : mainCode g (view a).main = g.program.code .main (a.loc .main) := rfl
      rcases mainCode_cases g (view a).main with ⟨b, m, l, hi⟩ | ⟨b, l, hi⟩ | ⟨f, hi⟩ |
        ⟨u, l, hi⟩ | ⟨u, l, hi⟩ | hi
      all_goals
        rw [← hcode, hi] at hc
        simp only [Core.next, reduceCtorEq] at hc
      · obtain rfl := Option.some.inj hc
        have hm : MainMove g (view a) _ := .access f hi
        convert hm using 1
        simp [view, Core.goto]
      · obtain rfl := Option.some.inj hc
        have hm : MainMove g (view a) _ := .create u l hi
        convert hm using 1
        simp [view, Core.goto]
      · split at hc
        · rename_i hu
          obtain rfl := Option.some.inj hc
          have hm : MainMove g (view a) _ := .join u l hi hu
          convert hm using 1
          simp [view, Core.goto]
        · contradiction
      · obtain rfl := Option.some.inj hc
        exact .exit hi

/-- Every atomic step of a worker is one of its moves. -/
theorem workerMove_of_step {a a' : Atomic g.program} {i : ℕ}
    (h : AtomicMove a (.worker i) a') : WorkerMove g i (view a) (view a') := by
  have hworker : ∀ (c : Core g.program) (l : WorkerLoc),
      (fun j => (c.goto (.worker i) l).loc (.worker j)) =
        Function.update (fun j => c.loc (.worker j)) i l := by
    intro c l
    funext j
    by_cases hj : j = i
    · subst hj
      simp
    · simp [hj]
  cases h with
  | send b m l hi hb =>
      have hm : WorkerMove g i (view a) _ := .send b m l hi hb
      convert hm using 1
      simp [view, hworker]
  | recv b l m hi hb =>
      have hm : WorkerMove g i (view a) _ := .recv b l m hi hb
      convert hm using 1
      simp [view, hworker]
  | core c hc =>
      have hcode : linesthread g i ((view a).worker i) =
        g.program.code (.worker i) (a.loc (.worker i)) := rfl
      rcases linesthread_cases g i ((view a).worker i) with ⟨b, m, l, hi⟩ |
        ⟨b, l, hi⟩ | ⟨q, l, hi⟩ | ⟨q, l, hi⟩ | ⟨f, hi⟩ | hi | hi
      all_goals
        rw [← hcode, hi] at hc
        simp only [Core.next, reduceCtorEq] at hc
      · split at hc
        · contradiction
        · rename_i hq
          obtain rfl := Option.some.inj hc
          cases q with
          | genDoneSem =>
              have hm : WorkerMove g i (view a) _ := .waitGenDone l hi hq
              convert hm using 1
              simp [view, hworker]
          | allDoneSem =>
              have hm : WorkerMove g i (view a) _ := .waitAllDone l hi hq
              convert hm using 1
              simp [view, hworker]
      · obtain rfl := Option.some.inj hc
        cases q with
        | genDoneSem =>
            have hm : WorkerMove g i (view a) _ := .postGenDone l hi
            convert hm using 1
            simp [view, hworker]
        | allDoneSem =>
            have hm : WorkerMove g i (view a) _ := .postAllDone l hi
            convert hm using 1
            simp [view, hworker]
      · obtain rfl := Option.some.inj hc
        have hm : WorkerMove g i (view a) _ := .access f hi
        convert hm using 1
        simp [view, hworker]
      · obtain rfl := Option.some.inj hc
        exact .exit hi
      · obtain rfl := Option.some.inj hc
        exact .abort hi

/-- A step of the atomic machine is a move of `main` or of a worker. -/
theorem move_of_step {a a' : Atomic g.program} {t : ThreadId}
    (h : atomicNext t a = some a') :
    (view a).aborted = false ∧ (view a).status t = .running ∧
      match t with
      | .main => MainMove g (view a) (view a')
      | .worker i => WorkerMove g i (view a) (view a') := by
  obtain ⟨⟨haborted, hrun⟩, hm⟩ := atomicNext_eq_some_iff.mp h
  refine ⟨haborted, hrun, ?_⟩
  cases t with
  | main => exact mainMove_of_step hm
  | worker i => exact workerMove_of_step hm

/-- In a deadlock `main`, if it still runs, waits. -/
theorem mainBlocked_of_stuck {a : Atomic g.program} (h : Transition.Stuck atomicNext a)
    (haborted : (view a).aborted = false) (hrun : (view a).status .main = .running) :
    MainBlocked g (view a) := by
  have ha : a.Active .main := ⟨haborted, hrun⟩
  have hnone := h .main
  unfold atomicNext at hnone
  rw [if_pos ha] at hnone
  have hcode : mainCode g (view a).main = g.program.code .main (a.loc .main) := rfl
  rw [← hcode] at hnone
  unfold MainBlocked
  rcases mainCode_cases g (view a).main with ⟨b, m, l, hi⟩ | ⟨b, l, hi⟩ | ⟨f, hi⟩ |
    ⟨u, l, hi⟩ | ⟨u, l, hi⟩ | hi
  all_goals
    simp only [hi] at hnone ⊢
  · cases hb : a.box b <;> simp_all [view]
  · cases hb : a.box b <;> simp_all [view]
  · simp [Core.next] at hnone
  · simp [Core.next] at hnone
  · simpa [Core.next, view] using hnone
  · simp [Core.next] at hnone

/-- In a deadlock a worker that still runs waits. -/
theorem workerBlocked_of_stuck {a : Atomic g.program} {i : ℕ}
    (h : Transition.Stuck atomicNext a) (haborted : (view a).aborted = false)
    (hrun : (view a).status (.worker i) = .running) : WorkerBlocked g i (view a) := by
  have ha : a.Active (.worker i) := ⟨haborted, hrun⟩
  have hnone := h (.worker i)
  unfold atomicNext at hnone
  rw [if_pos ha] at hnone
  have hcode : linesthread g i ((view a).worker i) =
    g.program.code (.worker i) (a.loc (.worker i)) := rfl
  rw [← hcode] at hnone
  unfold WorkerBlocked
  rcases linesthread_cases g i ((view a).worker i) with ⟨b, m, l, hi⟩ | ⟨b, l, hi⟩ |
    ⟨q, l, hi⟩ | ⟨q, l, hi⟩ | ⟨f, hi⟩ | hi | hi
  all_goals
    simp only [hi] at hnone ⊢
  · cases hb : a.box b <;> simp_all [view]
  · cases hb : a.box b <;> simp_all [view]
  · cases q <;> simpa [Core.next, view] using hnone
  · simp [Core.next] at hnone
  · simp [Core.next] at hnone
  · simp [Core.next] at hnone
  · simp [Core.next] at hnone

end Life

end OperatingSystems
