import OperatingSystems.Life.GridSteps

/-!
# Every run of life ends

`mainRank` and `workerRank` bound the steps that a thread can still take. Each
atomic step lowers the rank of the thread that takes it, or ends that thread, so
no run goes on forever and every state leads to one without enabled steps.
-/

namespace OperatingSystems

namespace Life

open OperatingSystems.Thread OperatingSystems.Mailbox

section Ranks

variable (g : Game)

/-- The cells left in a scan of the board, with one more step for each row. -/
def scanRank (i j : ℕ) : ℕ :=
  (g.lineSize - i) * (g.columnSize + 1) + (g.columnSize - j)

/-- More than the steps that `main` takes in one round. -/
def roundRank : ℕ := 2 * g.numberOfThreads + 5 + 3 * scanRank g 0 0

/-- More than the steps that `main` takes after its last round. -/
def endRank : ℕ := 2 * g.numberOfThreads + 3 + scanRank g 0 0

/-- The rank of the first step of a round. -/
def baseRank (cGen : ℕ) : ℕ := (g.numberOfGenerations + 1 - cGen) * roundRank g + endRank g

/-- A bound on the steps that `main` still takes. -/
def mainRank : MainLoc → ℕ
  | .create i => baseRank g 0 + 3 * g.numberOfThreads + 3 + (g.numberOfThreads + 1 - i)
  | .sendRange i => baseRank g 0 + 2 * g.numberOfThreads + 2 + (g.numberOfThreads - i)
  | .sendGo cGen _ i =>
      baseRank g cGen + g.numberOfThreads + 1 + (g.numberOfThreads + 1 - i)
  | .collect cGen _ i => baseRank g cGen + (g.numberOfThreads + 1 - i)
  | .isAllZero cGen _ i j _ =>
      baseRank g cGen + 2 * g.numberOfThreads + 4 + 2 * scanRank g 0 0 + scanRank g i j
  | .hasNotChanged cGen _ i j _ =>
      baseRank g cGen + 2 * g.numberOfThreads + 3 + scanRank g 0 0 + scanRank g i j
  | .updateMatrix cGen _ i j => baseRank g cGen + 2 * g.numberOfThreads + 2 + scanRank g i j
  | .sendStop _ _ i =>
      g.numberOfThreads + 3 + scanRank g 0 0 + (g.numberOfThreads + 1 - i)
  | .print _ _ i j => g.numberOfThreads + 2 + scanRank g i j
  | .join _ _ i => g.numberOfThreads + 2 - i
  | .finished _ _ => 0

/-- The cells left to a worker, with the steps of each. -/
def rowRank (v : WorkerVars) (line column : ℤ) : ℕ :=
  (v.lineTo + 1 - line).toNat * (10 * g.columnSize + 10) +
    ((g.columnSize : ℤ) - column).toNat * 10

/-- More than the steps that a worker takes in one generation. -/
def genRank : ℕ := g.lineSize * (10 * g.columnSize + 10) + 10 * g.columnSize + 3

/-- The rank of the last step of a generation. -/
def leftRank (gen : ℕ) : ℕ :=
  g.numberOfThreads + 9 + (g.numberOfGenerations + 1 - gen) * genRank g

/-- A bound on the steps that a worker still takes. -/
def workerRank : WorkerLoc → ℕ
  | .recvRange => leftRank g 1 + genRank g
  | .recvGo v => leftRank g v.gen + genRank g - 1
  | .row v line column => leftRank g v.gen + 1 + rowRank g v line column
  | .neighbor v line column k _ =>
      leftRank g v.gen + 1 + rowRank g v line (column + 1) + (8 - k) + 1
  | .sendGenDone v => leftRank g v.gen
  | .lockCount _ => g.numberOfThreads + 8
  | .incrementCount _ => g.numberOfThreads + 7
  | .unlockCount _ => g.numberOfThreads + 6
  | .testCount _ => g.numberOfThreads + 5
  | .postAll _ i => 3 + (g.numberOfThreads + 1 - i)
  | .waitAll _ => 2
  | .sendAllDone _ => 1
  | .returned _ => 0
  | .stopped _ => 0
  | .wrongMessage => 0

/-- One for a thread that has not ended. -/
def alive : Status → ℕ
  | .exited => 0
  | _ => 1

/-- A bound on the steps that all threads together still take. -/
def rank (s : View) : ℕ :=
  mainRank g s.main + alive (s.status .main) +
    ∑ i ∈ g.workers, (workerRank g (s.worker i) + alive (s.status (.worker i)))

end Ranks

variable {g : Game}

section Main

theorem scanRank_column {i j : ℕ} (hj : j < g.columnSize) :
    scanRank g i (j + 1) < scanRank g i j := by
  unfold scanRank
  omega

theorem scanRank_line {i j : ℕ} (hi : i < g.lineSize) :
    scanRank g (i + 1) 0 < scanRank g i j := by
  obtain ⟨n, hn⟩ : ∃ n, g.lineSize - i = n + 1 := ⟨g.lineSize - i - 1, by omega⟩
  have hn' : g.lineSize - (i + 1) = n := by omega
  unfold scanRank
  rw [hn, hn', Nat.succ_mul n]
  omega

theorem baseRank_succ {cGen : ℕ} (h : cGen ≤ g.numberOfGenerations) :
    baseRank g cGen = baseRank g (cGen + 1) + roundRank g := by
  obtain ⟨n, hn⟩ : ∃ n, g.numberOfGenerations + 1 - cGen = n + 1 :=
    ⟨g.numberOfGenerations - cGen, by omega⟩
  have hn' : g.numberOfGenerations + 1 - (cGen + 1) = n := by omega
  unfold baseRank
  rw [hn, hn', Nat.succ_mul n]
  omega

theorem endRank_le (cGen : ℕ) : endRank g ≤ baseRank g cGen :=
  Nat.le_add_left _ _

theorem mainRank_send {l l' : MainLoc} {b : ℕ} {m : Msg}
    (h : mainCode g l = .send b m l') : mainRank g l' < mainRank g l := by
  cases l <;> simp only [mainCode] at h
  all_goals
    repeat' split at h
    all_goals first | contradiction | obtain ⟨-, -, rfl⟩ := Instr.send.inj h
  all_goals
    simp only [mainRank]
    omega

theorem mainRank_recv {l : MainLoc} {b : ℕ} {k : Msg → MainLoc}
    (h : mainCode g l = .recv b k) (m : Msg) : mainRank g (k m) < mainRank g l := by
  cases l <;> simp only [mainCode] at h
  all_goals
    repeat' split at h
    all_goals first | contradiction | obtain ⟨-, rfl⟩ := Instr.recv.inj h
  dsimp only
  repeat' split
  all_goals
    simp only [mainRank]
    omega

/-- A step of a loop over the cells: past a cell, past a line, or out of the loop. -/
theorem mainRank_scan {l line : MainLoc} {i j n : ℕ} {f inside : Memory → Memory × MainLoc}
    {done : Instr ThreadId ℕ BarrierSem Msg Memory MainLoc}
    (h : (if i < g.lineSize then if j < g.columnSize then .access inside else goto line
      else done) = Instr.access f)
    (hl : mainRank g l = n + scanRank g i j)
    (hinside : ∀ mem, mainRank g (inside mem).2 = n + scanRank g i (j + 1))
    (hline : mainRank g line = n + scanRank g (i + 1) 0) (mem : Memory)
    (hdone : done = .access f → mainRank g (f mem).2 < mainRank g l) :
    mainRank g (f mem).2 < mainRank g l := by
  rcases access_of_scan h with ⟨-, hj, rfl⟩ | ⟨hi, -, rfl⟩ | ⟨-, h⟩
  · have hlt := scanRank_column (i := i) hj
    rw [hl, hinside]
    omega
  · have hlt := scanRank_line (j := j) hi
    dsimp only
    rw [hl, hline]
    omega
  · exact hdone h

theorem mainRank_access {l : MainLoc} {f : Memory → Memory × MainLoc} (hok : MainOk g l)
    (h : mainCode g l = .access f) (mem : Memory) : mainRank g (f mem).2 < mainRank g l := by
  have hend : endRank g = 2 * g.numberOfThreads + 3 + scanRank g 0 0 := rfl
  have hround : roundRank g = 2 * g.numberOfThreads + 5 + 3 * scanRank g 0 0 := rfl
  cases l with
  | collect cGen al k =>
      have hbase := endRank_le (g := g) cGen
      have hsucc := baseRank_succ hok.1
      simp only [mainCode] at h
      (repeat' split at h) <;> first | contradiction | obtain rfl := Instr.access.inj h
      all_goals
        simp only [mainRank]
        omega
  | isAllZero cGen al i j isZero =>
      have hbase := endRank_le (g := g) cGen
      refine mainRank_scan h rfl (fun _ => rfl) rfl mem fun h => ?_
      split at h <;> obtain rfl := Instr.access.inj h
      all_goals
        simp only [mainRank]
        omega
  | hasNotChanged cGen al i j notChanged =>
      have hbase := endRank_le (g := g) cGen
      refine mainRank_scan h rfl (fun _ => rfl) rfl mem fun h => ?_
      split at h <;> obtain rfl := Instr.access.inj h
      all_goals
        simp only [mainRank]
        omega
  | updateMatrix cGen al i j =>
      have hbase := endRank_le (g := g) cGen
      refine mainRank_scan h rfl (fun _ => rfl) rfl mem fun h => ?_
      split at h <;> obtain rfl := Instr.access.inj h
      all_goals
        simp only [mainRank]
        omega
  | print cGen al i j =>
      refine mainRank_scan h rfl (fun _ => rfl) rfl mem fun h => ?_
      obtain rfl := Instr.access.inj h
      simp only [mainRank]
      omega
  | join cGen al k =>
      have hk := hok.2.2.2.2
      simp only [mainCode] at h
      split at h
      · contradiction
      · obtain rfl := Instr.access.inj h
        simp only [mainRank]
        omega
  | _ =>
      simp only [mainCode] at h
      (repeat' split at h) <;> first | contradiction | obtain rfl := Instr.access.inj h
      all_goals
        simp only [mainRank]
        omega

theorem mainRank_create {l l' : MainLoc} {u : ThreadId} (hok : MainOk g l)
    (h : mainCode g l = .create u l') : mainRank g l' < mainRank g l := by
  obtain ⟨-, k, rfl, hk, -, rfl⟩ := mainQuiet_of_create hok h
  simp only [mainRank]
  omega

theorem mainRank_join {l l' : MainLoc} {u : ThreadId} (hok : MainOk g l)
    (h : mainCode g l = .join u l') : mainRank g l' < mainRank g l := by
  obtain ⟨-, cGen, al, k, rfl, hk, -, rfl⟩ := mainQuiet_of_join hok h
  simp only [mainRank]
  omega

end Main

section Worker

variable {i : ℕ}

theorem leftRank_succ {gen : ℕ} (h : gen ≤ g.numberOfGenerations) :
    leftRank g gen = leftRank g (gen + 1) + genRank g := by
  obtain ⟨n, hn⟩ : ∃ n, g.numberOfGenerations + 1 - gen = n + 1 :=
    ⟨g.numberOfGenerations - gen, by omega⟩
  have hn' : g.numberOfGenerations + 1 - (gen + 1) = n := by omega
  unfold leftRank
  rw [hn, hn', Nat.succ_mul n]
  omega

theorem workerRank_forGen_lt (v : WorkerVars) :
    workerRank g (forGen g v) < leftRank g v.gen + genRank g := by
  have hgen : 0 < genRank g := Nat.succ_pos _
  unfold forGen
  split
  · simp only [workerRank]
    omega
  · simp only [workerRank, leftRank]
    omega

/-- The lines of a worker are not more than those of the board. -/
theorem VarsOk.rowRank_le {v : WorkerVars} (h : VarsOk g i v) (hi : i ∈ g.workers) :
    rowRank g v v.lineFrom 0 + 3 ≤ genRank g := by
  have hlines : (v.lineTo + 1 - v.lineFrom).toNat ≤ g.lineSize := by
    obtain ⟨hi1, hiT⟩ := Game.mem_workers.mp hi
    obtain ⟨hv1, hv2⟩ := Game.rangeMsg_values hi
    rw [h.lineFrom, h.lineTo, hv1, hv2]
    split
    · have hmul := g.mul_range_le
      have hle : i * g.range ≤ g.numberOfThreads * g.range := Nat.mul_le_mul_right _ hiT
      omega
    · omega
  have hmul := Nat.mul_le_mul_right (10 * g.columnSize + 10) hlines
  simp only [rowRank, genRank, sub_zero, Int.toNat_natCast]
  omega

theorem rowRank_column (v : WorkerVars) (line : ℤ) {column : ℤ} (h : column < g.columnSize) :
    rowRank g v line (column + 1) + 10 = rowRank g v line column := by
  unfold rowRank
  omega

theorem rowRank_line (g : Game) {v : WorkerVars} {line : ℤ} (column : ℤ) (h : line ≤ v.lineTo) :
    rowRank g v (line + 1) 0 < rowRank g v line column := by
  obtain ⟨n, hn⟩ : ∃ n, (v.lineTo + 1 - line).toNat = n + 1 :=
    ⟨(v.lineTo - line).toNat, by omega⟩
  have hn' : (v.lineTo + 1 - (line + 1)).toNat = n := by omega
  unfold rowRank
  rw [hn, hn', Nat.succ_mul n]
  omega

theorem workerRank_send {l l' : WorkerLoc} {b : ℕ} {m : Msg} (hok : WorkerOk g i l)
    (h : linesthread g i l = .send b m l') : workerRank g l' < workerRank g l := by
  cases l with
  | sendGenDone v =>
      simp only [linesthread] at h
      obtain ⟨-, -, rfl⟩ := Instr.send.inj h
      have hgen : v.gen ≤ g.numberOfGenerations := hok.inLoop rfl
      have hlt := workerRank_forGen_lt (g := g) { v with gen := v.gen + 1 }
      have hsucc := leftRank_succ hgen
      simp only [workerRank] at hlt ⊢
      omega
  | sendAllDone v =>
      simp only [linesthread] at h
      obtain ⟨-, -, rfl⟩ := Instr.send.inj h
      exact Nat.one_pos
  | _ =>
      simp only [linesthread] at h
      repeat' split at h
      all_goals contradiction

theorem workerRank_recv {l : WorkerLoc} {b : ℕ} {k : Msg → WorkerLoc} (hok : WorkerOk g i l)
    (hi : i ∈ g.workers) (h : linesthread g i l = .recv b k) (m : Msg) :
    workerRank g (k m) < workerRank g l := by
  have hgen : 0 < genRank g := Nat.succ_pos _
  cases l with
  | recvRange =>
      simp only [linesthread] at h
      obtain ⟨-, rfl⟩ := Instr.recv.inj h
      dsimp only
      split
      · simp only [workerRank]
        omega
      · exact workerRank_forGen_lt _
  | recvGo v =>
      simp only [linesthread] at h
      obtain ⟨-, rfl⟩ := Instr.recv.inj h
      have hrow := (hok.varsOk rfl).rowRank_le hi
      have hleft : 0 < leftRank g v.gen := by simp [leftRank]
      dsimp only
      repeat' split
      · simp only [workerRank]
        omega
      · have hsame : rowRank g { v with message := m } v.lineFrom 0 =
          rowRank g v v.lineFrom 0 := rfl
        simp only [workerRank, hsame]
        omega
      · simp only [workerRank]
        omega
  | _ =>
      simp only [linesthread] at h
      repeat' split at h
      all_goals contradiction

theorem workerRank_access {l : WorkerLoc} {f : Memory → Memory × WorkerLoc}
    (h : linesthread g i l = .access f) (mem : Memory) :
    workerRank g (f mem).2 < workerRank g l := by
  cases l with
  | row v line column =>
      simp only [linesthread] at h
      split at h
      · rename_i hline
        split at h
        · rename_i hcolumn
          obtain rfl := Instr.access.inj h
          have := rowRank_column v line hcolumn
          simp only [workerRank]
          omega
        · obtain rfl := Instr.access.inj h
          have := rowRank_line g column hline
          simp only [workerRank]
          omega
      · obtain rfl := Instr.access.inj h
        simp only [workerRank]
        omega
  | testCount v =>
      simp only [linesthread] at h
      obtain rfl := Instr.access.inj h
      dsimp only
      split
      · simp only [workerRank]
        omega
      · simp only [workerRank]
        omega
  | _ =>
      simp only [linesthread] at h
      (repeat' split at h) <;> first | contradiction | obtain rfl := Instr.access.inj h
      all_goals
        simp only [workerRank]
        omega

theorem workerRank_wait {l l' : WorkerLoc} {q : BarrierSem}
    (h : linesthread g i l = .wait q l') : workerRank g l' < workerRank g l := by
  cases l <;> simp only [linesthread] at h
  all_goals
    repeat' split at h
    all_goals first | contradiction | obtain ⟨-, rfl⟩ := Instr.wait.inj h
  all_goals
    simp only [workerRank]
    omega

theorem workerRank_post {l l' : WorkerLoc} {q : BarrierSem}
    (h : linesthread g i l = .post q l') : workerRank g l' < workerRank g l := by
  cases l <;> simp only [linesthread] at h
  all_goals
    repeat' split at h
    all_goals first | contradiction | obtain ⟨-, rfl⟩ := Instr.post.inj h
  all_goals
    simp only [workerRank]
    omega

end Worker

section Rank

variable {s s' : View}

/-- Every move of `main` lowers the rank. -/
theorem rank_mainMove (h : Inv g s) (hrun : s.status .main = .running)
    (hm : MainMove g s s') : rank g s' < rank g s := by
  have hok := h.flow.mainOk
  cases hm with
  | send b m l hi hb =>
      have := mainRank_send hi
      simp only [rank]
      omega
  | recv b l m hi hb =>
      have := mainRank_recv hi m
      simp only [rank]
      omega
  | access f hi =>
      have := mainRank_access hok hi s.mem
      simp only [rank]
      omega
  | create u l hi =>
      have hlt := mainRank_create hok hi
      obtain ⟨-, k, hk, -, rfl, rfl⟩ := mainQuiet_of_create hok hi
      have halive : ∀ i, alive (Function.update s.status (.worker k) .running (.worker i)) =
          alive (s.status (.worker i)) := by
        intro i
        by_cases hik : i = k
        · subst hik
          have hnew : s.status (.worker i) = .new := by
            by_contra hne
            have hcreated := ((h.lives.created i).mp hne).2
            rw [hk] at hcreated
            exact lt_irrefl _ hcreated
          simp [hnew, alive]
        · simp [hik]
      simp only [rank, halive]
      simp only [ne_eq, reduceCtorEq, not_false_eq_true, Function.update_of_ne]
      omega
  | join u l hi hu =>
      have := mainRank_join hok hi
      simp only [rank]
      omega
  | exit hi =>
      simp only [rank, Function.update_self, hrun]
      simp [alive]

/-- A worker's rank falls and nothing else changes. -/
theorem rank_worker {i : ℕ} {l : WorkerLoc} (hi : i ∈ g.workers)
    (hlt : workerRank g l < workerRank g (s.worker i)) (hmain : s'.main = s.main)
    (hworker : s'.worker = Function.update s.worker i l) (hstatus : s'.status = s.status) :
    rank g s' < rank g s := by
  have hsum : ∑ j ∈ g.workers, (workerRank g (s'.worker j) + alive (s'.status (.worker j))) <
      ∑ j ∈ g.workers, (workerRank g (s.worker j) + alive (s.status (.worker j))) := by
    refine Finset.sum_lt_sum (fun j _ => ?_) ⟨i, hi, ?_⟩
    · rw [hworker, hstatus]
      by_cases hji : j = i
      · subst hji
        simp only [Function.update_self]
        omega
      · simp [hji]
    · rw [hworker, hstatus, Function.update_self]
      omega
  simp only [rank, hmain, hstatus] at hsum ⊢
  omega

/-- Every move of a worker lowers the rank. -/
theorem rank_workerMove {i : ℕ} (h : Inv g s) (hrun : s.status (.worker i) = .running)
    (hm : WorkerMove g i s s') : rank g s' < rank g s := by
  have hi := h.lives.mem_workers h.flow.mainOk hrun
  have hok := h.flow.workerOk i hi
  cases hm with
  | send b m l hc hb => exact rank_worker hi (workerRank_send hok hc) rfl rfl rfl
  | recv b l m hc hb => exact rank_worker hi (workerRank_recv hok hi hc m) rfl rfl rfl
  | waitGenDone l hc hq => exact rank_worker hi (workerRank_wait hc) rfl rfl rfl
  | waitAllDone l hc hq => exact rank_worker hi (workerRank_wait hc) rfl rfl rfl
  | postGenDone l hc => exact rank_worker hi (workerRank_post hc) rfl rfl rfl
  | postAllDone l hc => exact rank_worker hi (workerRank_post hc) rfl rfl rfl
  | access f hc => exact rank_worker hi (workerRank_access hc s.mem) rfl rfl rfl
  | exit hc =>
      have hsum : ∑ j ∈ g.workers, (workerRank g (s.worker j) +
          alive (Function.update s.status (.worker i) .exited (.worker j))) <
          ∑ j ∈ g.workers, (workerRank g (s.worker j) + alive (s.status (.worker j))) := by
        refine Finset.sum_lt_sum (fun j _ => ?_) ⟨i, hi, ?_⟩
        · by_cases hji : j = i
          · subst hji
            simp [alive]
          · simp [hji]
        · simp [hrun, alive]
      simp only [rank]
      simp only [ne_eq, reduceCtorEq, not_false_eq_true, Function.update_of_ne]
      omega
  | abort hc => exact absurd (wrongMessage_of_abort hc) hok.right

/-- From every reachable state the threads run into a state where no step is
enabled. -/
theorem exists_stuck_of_reachable {blank : Msg} {a : Atomic g.program}
    (ha : Transition.Reachable atomicNext (g.init blank) a) :
    ∃ a', Transition.Reachable atomicNext a a' ∧ Transition.Stuck atomicNext a' := by
  have hself : Transition.Reachable atomicNext a a := Relation.ReflTransGen.refl
  refine hself.exists_stuck (fun a => rank g (view a)) ?_
  intro t b b' hreach hnext
  have hinv := inv_of_reachable (ha.trans hreach)
  obtain ⟨-, hrun, hm⟩ := move_of_step hnext
  cases t with
  | main => exact rank_mainMove hinv hrun hm
  | worker i => exact rank_workerMove hinv hrun hm

end Rank

end Life

end OperatingSystems
