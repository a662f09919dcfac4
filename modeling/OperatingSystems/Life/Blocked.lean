import OperatingSystems.Life.Preservation

/-!
# What a deadlock of life looks like

In a deadlock every running worker waits for a mailbox or at the barrier. While
`main` has a message to send or to collect some worker can still go on, so
`main` waits in a join; it has then stopped the game at the very last
generation, with two workers or more, when all of them had left their loops.
-/

namespace OperatingSystems

namespace Life

open OperatingSystems.Thread OperatingSystems.Mailbox

variable {g : Game}

/-- A state in which every thread that runs waits. -/
structure Blocked (g : Game) (s : View) : Prop where
  inv : Inv g s
  main : MainBlocked g s
  worker : ∀ i, s.status (.worker i) = .running → WorkerBlocked g i s

/-- The places at which a running worker can wait in a deadlock. -/
inductive WaitsAt (s : View) (i : ℕ) : WorkerLoc → Prop
  | recvRange (h : s.box i = none) : WaitsAt s i .recvRange
  | recvGo (v : WorkerVars) (h : s.box i = none) : WaitsAt s i (.recvGo v)
  | sendGenDone (v : WorkerVars) (h : s.box 0 ≠ none) : WaitsAt s i (.sendGenDone v)
  | waitAll (v : WorkerVars) (h : s.allDoneSem = 0) : WaitsAt s i (.waitAll v)
  | sendAllDone (v : WorkerVars) (h : s.box 0 ≠ none) : WaitsAt s i (.sendAllDone v)

/-- The counts of a worker in a deadlock. -/
inductive Rests (g : Game) (s : View) (i : ℕ) : Prop
  | start (hbox : s.box i = none) (hrecvd : (s.worker i).recvd = 0)
      (hsent : (s.worker i).sent = 0) (hrun : s.status (.worker i) = .running)
  | asks (hbox : s.box i = none) (hrecvd : (s.worker i).recvd = (s.worker i).sent + 1)
      (hgo : (s.worker i).goRecvd = (s.worker i).sent)
      (hsent : (s.worker i).sent < g.numberOfGenerations)
      (hrun : s.status (.worker i) = .running)
  | answers (hbox : s.box 0 ≠ none) (hrecvd : (s.worker i).recvd = (s.worker i).sent + 2)
      (hgo : (s.worker i).goRecvd = (s.worker i).sent + 1)
      (hrun : s.status (.worker i) = .running)
  | waits (hcounted : (s.worker i).counted = 1)
      (hrecvd : (s.worker i).recvd = g.numberOfGenerations + 1)
      (hgo : (s.worker i).goRecvd = g.numberOfGenerations)
      (hsent : (s.worker i).sent = g.numberOfGenerations) {v : WorkerVars}
      (hw : s.worker i = .waitAll v)
  | done (hbox : s.box 0 ≠ none) (hcounted : (s.worker i).counted = 1)
      (hrecvd : (s.worker i).recvd = g.numberOfGenerations + 1)
      (hgo : (s.worker i).goRecvd = g.numberOfGenerations)
      (hsent : (s.worker i).sent = g.numberOfGenerations)
  | returned (hexit : s.status (.worker i) = .exited) (hcounted : (s.worker i).counted = 1)
      (hrecvd : (s.worker i).recvd = g.numberOfGenerations + 1)
      (hsent : (s.worker i).sent = g.numberOfGenerations + 1)
  | stopped (hexit : s.status (.worker i) = .exited) (hhalted : (s.worker i).halted = 1)
      (hrecvd : (s.worker i).recvd = (s.worker i).sent + 2)
      (hsent : (s.worker i).sent < g.numberOfGenerations)

section Blocked

variable {s : View} {i : ℕ}

/-- `main` waits only after it has created all workers. -/
theorem Blocked.nextCreate (h : Blocked g s) :
    s.main.nextCreate g = g.numberOfThreads + 1 := by
  have hb := h.main
  unfold MainBlocked at hb
  cases hm : s.main with
  | create k =>
      rw [hm] at hb
      simp only [mainCode] at hb
      split at hb <;> rename_i heq <;> split at heq <;> simp_all
  | _ => rfl

/-- A worker of a deadlock runs or has ended. -/
theorem Blocked.running_or_exited (h : Blocked g s) (hi : i ∈ g.workers) :
    s.status (.worker i) = .running ∨ s.status (.worker i) = .exited := by
  obtain ⟨hi1, hiT⟩ := Game.mem_workers.mp hi
  have hcreated := (h.inv.lives.created i).mpr ⟨hi1, by rw [h.nextCreate]; omega⟩
  cases hs : s.status (.worker i) with
  | new => exact absurd hs hcreated
  | running => exact .inl rfl
  | exited => exact .inr rfl

/-- Nobody is between the wait and the post on `gendone_sem`. -/
theorem Blocked.genDoneSem (h : Blocked g s) : s.genDoneSem = 1 := by
  have hcrit := h.inv.barrier.critical
  have hzero : total g WorkerLoc.critical s.worker = 0 := by
    refine Finset.sum_eq_zero fun i hi => ?_
    rcases h.running_or_exited hi with hrun | hexit
    · have hb := h.worker i hrun
      unfold WorkerBlocked at hb
      cases hw : s.worker i <;> simp only [WorkerLoc.critical]
      all_goals simp [hw, linesthread] at hb
    · have hend := h.inv.lives.ended i hexit
      cases hw : s.worker i <;> simp_all [WorkerLoc.ended, WorkerLoc.halted, WorkerLoc.critical]
  omega

theorem Blocked.waitsAt (h : Blocked g s) (hi : i ∈ g.workers)
    (hrun : s.status (.worker i) = .running) : WaitsAt s i (s.worker i) := by
  have hb := h.worker i hrun
  have hok := h.inv.flow.workerOk i hi
  have hsem := h.genDoneSem
  unfold WorkerBlocked at hb
  cases hw : s.worker i with
  | recvRange =>
      simp only [hw, linesthread] at hb
      exact .recvRange hb
  | recvGo v =>
      simp only [hw, linesthread] at hb
      exact .recvGo v hb
  | row v line column =>
      simp only [hw, linesthread] at hb
      split at hb <;> rename_i heq <;> (repeat' split at heq) <;> simp_all
  | neighbor v line column k counter =>
      simp only [hw, linesthread] at hb
      split at hb <;> rename_i heq <;> (repeat' split at heq) <;> simp_all
  | sendGenDone v =>
      simp only [hw, linesthread] at hb
      exact .sendGenDone v hb
  | lockCount v =>
      simp only [hw, linesthread] at hb
      omega
  | postAll v k =>
      simp only [hw, linesthread] at hb
      split at hb <;> rename_i heq <;> (repeat' split at heq) <;> simp_all
  | waitAll v =>
      simp only [hw, linesthread] at hb
      exact .waitAll v hb
  | sendAllDone v =>
      simp only [hw, linesthread] at hb
      exact .sendAllDone v hb
  | wrongMessage => exact absurd hw hok.right
  | _ => simp [hw, linesthread] at hb

theorem Blocked.rests (h : Blocked g s) (hi : i ∈ g.workers) : Rests g s i := by
  have hok := h.inv.flow.workerOk i hi
  have hgen := hok.one_le_gen
  have hloop := hok.inLoop
  have hpast := hok.pastLoop
  rcases h.running_or_exited hi with hrun | hexit
  · have hwaits := h.waitsAt hi hrun
    cases hw : s.worker i with
    | recvRange =>
        rw [hw] at hwaits
        cases hwaits with
        | recvRange hbox => exact .start hbox (by rw [hw]; rfl) (by rw [hw]; rfl) hrun
    | recvGo v =>
        rw [hw] at hwaits hgen hloop
        have hle : v.gen ≤ g.numberOfGenerations := hloop rfl
        have hone : 1 ≤ v.gen := hgen
        have hsent : (s.worker i).sent = v.gen - 1 := by rw [hw]; rfl
        cases hwaits with
        | recvGo _ hbox =>
            refine .asks hbox ?_ (by rw [hw]; rfl) (by omega) hrun
            rw [hsent, hw]
            change v.gen = v.gen - 1 + 1
            omega
    | sendGenDone v =>
        rw [hw] at hwaits hgen
        have hone : 1 ≤ v.gen := hgen
        cases hwaits with
        | sendGenDone _ hbox =>
            refine .answers hbox ?_ (by rw [hw]; rfl) hrun
            rw [hw]
            change v.gen + 1 = v.gen - 1 + 2
            omega
    | waitAll v =>
        rw [hw] at hpast
        have heq : v.gen = g.numberOfGenerations + 1 := hpast rfl
        refine .waits (by rw [hw]; rfl) (by rw [hw]; exact heq) ?_ ?_ hw
        · rw [hw]
          change v.gen - 1 = _
          omega
        · rw [hw]
          change v.gen - 1 = _
          omega
    | sendAllDone v =>
        rw [hw] at hwaits hpast
        have heq : v.gen = g.numberOfGenerations + 1 := hpast rfl
        cases hwaits with
        | sendAllDone _ hbox =>
            refine .done hbox (by rw [hw]; rfl) (by rw [hw]; exact heq) ?_ ?_
            · rw [hw]
              change v.gen - 1 = _
              omega
            · rw [hw]
              change v.gen - 1 = _
              omega
    | _ =>
        rw [hw] at hwaits
        cases hwaits
  · have hend := h.inv.lives.ended i hexit
    cases hw : s.worker i with
    | returned v =>
        rw [hw] at hpast
        have heq : v.gen = g.numberOfGenerations + 1 := hpast rfl
        refine .returned hexit (by rw [hw]; rfl) (by rw [hw]; exact heq) ?_
        rw [hw]
        change v.gen - 1 + 1 = _
        omega
    | stopped v =>
        rw [hw] at hloop hgen
        have hle : v.gen ≤ g.numberOfGenerations := hloop rfl
        have hone : 1 ≤ v.gen := hgen
        refine .stopped hexit (by rw [hw]; rfl) ?_ ?_
        · rw [hw]
          change v.gen + 1 = v.gen - 1 + 2
          omega
        · rw [hw]
          change v.gen - 1 < _
          omega
    | _ => simp [hw, WorkerLoc.ended, WorkerLoc.halted] at hend

/-- The barrier holds nobody back once all workers have been counted. -/
theorem Blocked.exists_not_counted (h : Blocked g s) (hi : i ∈ g.workers) {v : WorkerVars}
    (hw : s.worker i = .waitAll v) : ∃ j ∈ g.workers, (s.worker j).counted = 0 := by
  by_contra hall
  have hone : ∀ j ∈ g.workers, 1 ≤ (s.worker j).counted := by
    intro j hj
    by_contra hlt
    exact hall ⟨j, hj, by omega⟩
  have hcount : s.mem.barrierCount = g.numberOfThreads := by
    have hge := le_total_of_forall hone
    have hle : total g WorkerLoc.counted s.worker ≤ g.numberOfThreads * 1 :=
      total_le fun j _ => (s.worker j).counted_le
    rw [h.inv.barrier.count]
    omega
  have hsem : s.allDoneSem = 0 := by
    rcases h.running_or_exited hi with hrun | hexit
    · have hwaits := h.waitsAt hi hrun
      rw [hw] at hwaits
      cases hwaits with
      | waitAll _ hsem => exact hsem
    · have hend := h.inv.lives.ended i hexit
      simp [hw, WorkerLoc.ended, WorkerLoc.halted] at hend
  rcases h.inv.barrier.release hcount with hposts | ⟨j, hj, hrel⟩
  · have hle : total g WorkerLoc.passed s.worker ≤ g.numberOfThreads * 1 :=
      total_le fun j _ => (s.worker j).passed_le
    simp only [View.posts] at hposts
    omega
  · rcases h.running_or_exited hj with hrun | hexit
    · have hwaits := h.waitsAt hj hrun
      cases hwj : s.worker j <;> rw [hwj] at hrel hwaits
      all_goals first | exact hrel.elim | cases hwaits
    · have hend := h.inv.lives.ended j hexit
      cases hwj : s.worker j <;> rw [hwj] at hrel hend
      all_goals first | exact hrel.elim | simp [WorkerLoc.ended, WorkerLoc.halted] at hend

/-- The messages to a worker and from it. -/
theorem Blocked.counts (h : Blocked g s) (hi : i ∈ g.workers) :
    (s.worker i).recvd + full (s.box i) = s.main.sentTo i ∧
      (s.worker i).goRecvd ≤ s.main.goSentTo i ∧ s.main.rounds ≤ (s.worker i).sent :=
  ⟨(h.inv.flow.channel i hi).count, (h.inv.flow.channel i hi).go, h.inv.flow.floor i hi⟩

theorem MainOk.rounds_le {l : MainLoc} (h : MainOk g l) : l.rounds ≤ g.numberOfGenerations := by
  cases l <;> simp_all [MainOk, MainLoc.rounds]

/-- A worker that `main` has a message for takes the one in its mailbox. -/
theorem Blocked.not_send (h : Blocked g s) {b : ℕ} {m : Msg} {l : MainLoc}
    (hcode : mainCode g s.main = .send b m l) : False := by
  have hok := h.inv.flow.mainOk
  have hrounds := hok.rounds_le
  have hc := mainSend_of_code hok hcode
  have hb : b ∈ g.workers := Game.mem_workers.mpr ⟨hc.one_le, hc.le⟩
  have hfull : s.box b ≠ none := by
    have hmain := h.main
    unfold MainBlocked at hmain
    rwa [hcode] at hmain
  have hsent : s.main.sentTo b ≤ s.main.rounds + 1 := by
    cases hm : s.main <;> rw [hm] at hcode <;> simp only [mainCode] at hcode
    all_goals
      repeat' split at hcode
      all_goals first | contradiction | obtain ⟨rfl, -, -⟩ := Instr.send.inj hcode
    all_goals
      simp only [MainLoc.sentTo, MainLoc.rounds]
      split <;> omega
  obtain ⟨hcount, -, hfloor⟩ := h.counts hb
  have hone : full (s.box b) = 1 := by
    cases hbox : s.box b with
    | none => exact absurd hbox hfull
    | some m' => rfl
  cases h.rests hb with
  | start hbox _ _ _ => exact hfull hbox
  | asks hbox _ _ _ _ => exact hfull hbox
  | answers _ hrecvd _ _ => omega
  | waits _ hrecvd _ _ _ => omega
  | done _ _ hrecvd _ _ => omega
  | returned _ _ hrecvd _ => omega
  | stopped _ _ hrecvd _ => omega

/-- While `main` collects the messages of a round, some worker has one to send. -/
theorem Blocked.not_recv (h : Blocked g s) {b : ℕ} {k : Msg → MainLoc}
    (hcode : mainCode g s.main = .recv b k) : False := by
  have hok := h.inv.flow.mainOk
  obtain ⟨rfl, -⟩ := mainRecv_of_code hok hcode
  have hempty : s.box 0 = none := by
    have hmain := h.main
    unfold MainBlocked at hmain
    rwa [hcode] at hmain
  obtain ⟨cGen, al, n, hm, hn⟩ : ∃ cGen al n, s.main = .collect cGen al n ∧
      n ≤ g.numberOfThreads := by
    cases hm : s.main with
    | collect cGen al n =>
        rw [hm] at hcode
        simp only [mainCode] at hcode
        split at hcode
        · exact ⟨cGen, al, n, rfl, by omega⟩
        · split at hcode <;> contradiction
    | _ =>
        rw [hm] at hcode
        simp only [mainCode] at hcode
        repeat' split at hcode
        all_goals contradiction
  rw [hm] at hok
  obtain ⟨hc, hn1, -, -⟩ := hok
  have hparent := h.inv.flow.parent
  rw [hempty, full_none, Nat.add_zero, hm] at hparent
  have hcoll : MainLoc.collected g (.collect cGen al n) =
    cGen * g.numberOfThreads + (n - 1) := rfl
  rw [hcoll] at hparent
  -- some worker has not answered in this round
  obtain ⟨j, hj, hle⟩ : ∃ j ∈ g.workers, (s.worker j).sent ≤ cGen := by
    by_contra hall
    have hge : g.numberOfThreads * (cGen + 1) ≤ total g WorkerLoc.sent s.worker := by
      refine le_total_of_forall fun j hj => ?_
      by_contra hlt
      exact hall ⟨j, hj, by omega⟩
    rw [Nat.mul_comm, Nat.succ_mul] at hge
    omega
  have hcounts : ∀ i ∈ g.workers, (s.worker i).recvd + full (s.box i) = cGen + 2 ∧
      (s.worker i).goRecvd ≤ cGen + 1 ∧ cGen ≤ (s.worker i).sent := by
    intro i hi
    have hcounts := h.counts hi
    rwa [hm] at hcounts
  have hhalted : ∀ i ∈ g.workers, (s.worker i).halted ≠ 1 := by
    intro i hi hhalt
    have hfull := (h.inv.flow.channel i hi).halted hhalt
    rw [hm] at hfull
    change cGen + 2 = cGen + 1 + 2 at hfull
    omega
  obtain ⟨hcount, hgo, hfloor⟩ := hcounts j hj
  cases h.rests hj with
  | start hbox hrecvd _ _ =>
      rw [hbox, full_none] at hcount
      omega
  | asks hbox hrecvd _ _ _ =>
      rw [hbox, full_none] at hcount
      omega
  | answers hbox _ _ _ => exact hbox hempty
  | waits _ _ _ hsent hw =>
      -- all the others are in the barrier as well
      obtain ⟨i, hi, hzero⟩ := h.exists_not_counted hj hw
      obtain ⟨hcount', hgo', hfloor'⟩ := hcounts i hi
      cases h.rests hi with
      | start hbox hrecvd _ _ =>
          rw [hbox, full_none] at hcount'
          omega
      | asks _ _ _ _ _ => omega
      | answers hbox _ _ _ => exact hbox hempty
      | waits hone _ _ _ _ => omega
      | done _ hone _ _ _ => omega
      | returned _ hone _ _ => omega
      | stopped _ hhalt _ _ => exact hhalted i hi hhalt
  | done hbox _ _ _ _ => exact hbox hempty
  | returned _ _ _ hsent => omega
  | stopped _ hhalt _ _ => exact hhalted j hj hhalt

/-- A worker has sent at most one message for each generation and one more. -/
theorem Blocked.sent_le (h : Blocked g s) (hi : i ∈ g.workers) :
    (s.worker i).sent ≤ g.numberOfGenerations + 1 := by
  have hend := (s.worker i).ended_le
  by_cases hzero : (s.worker i).ended = 0
  · exact le_trans (h.inv.flow.sent_le hi hzero) (Nat.le_succ _)
  · have hgen := (h.inv.flow.workerOk i hi).pastLoop (WorkerLoc.inBarrier_of_counted
      (WorkerLoc.counted_of_passed (WorkerLoc.passed_of_ended hzero)))
    simp only [WorkerLoc.sent, hgen]
    omega

/-- The worker that `main` waits for in a join has not ended. -/
theorem Blocked.join_running (h : Blocked g s) {cGen al : ℕ} (hm : s.main = .join cGen al i)
    (hi : i ∈ g.workers) : s.status (.worker i) = .running := by
  have hcode : mainCode g s.main = .join (.worker i) (.join cGen al (i + 1)) := by
    rw [hm, mainCode, if_pos (Game.mem_workers.mp hi).2]
  have hmain := h.main
  unfold MainBlocked at hmain
  rw [hcode] at hmain
  exact (h.running_or_exited hi).resolve_right hmain

/-- The counts of a worker while `main` waits in a join. -/
theorem Blocked.join_counts (h : Blocked g s) {cGen al n : ℕ} (hm : s.main = .join cGen al n)
    (hi : i ∈ g.workers) :
    (s.worker i).recvd + full (s.box i) = cGen + 2 ∧
      (s.worker i).goRecvd ≤ cGen + (if al = 0 then 0 else 1) ∧ cGen ≤ (s.worker i).sent := by
  have hcounts := h.counts hi
  rwa [hm] at hcounts

/-- After a stop before the last generation every worker ends. -/
theorem Blocked.join_last (h : Blocked g s) {cGen : ℕ} (hm : s.main = .join cGen 0 i)
    (hi : i ∈ g.workers) (hle : cGen ≤ g.numberOfGenerations) : cGen = g.numberOfGenerations := by
  have hrun := h.join_running hm hi
  obtain ⟨hcount, hgo, hfloor⟩ := h.join_counts hm hi
  rw [if_pos rfl, Nat.add_zero] at hgo
  cases h.rests hi with
  | start hbox hrecvd _ _ =>
      rw [hbox, full_none] at hcount
      omega
  | asks hbox hrecvd hgo' _ _ =>
      rw [hbox, full_none] at hcount
      omega
  | answers _ _ hgo' _ => omega
  | waits _ _ hgo' _ _ => omega
  | done _ _ _ hgo' _ => omega
  | returned hexit _ _ _ => simp [hrun] at hexit
  | stopped hexit _ _ _ => simp [hrun] at hexit

/-- A worker that is alone passes the barrier and ends. -/
theorem Blocked.join_two (h : Blocked g s) (hm : s.main = .join g.numberOfGenerations 0 i)
    (hi : i ∈ g.workers) : 2 ≤ g.numberOfThreads := by
  have hT := g.one_le_threads
  have hrun := h.join_running hm hi
  obtain ⟨hcount, hgo, hfloor⟩ := h.join_counts hm hi
  rw [if_pos rfl, Nat.add_zero] at hgo
  by_contra hlt
  have hsame : ∀ j ∈ g.workers, j = i := by
    intro j hj
    obtain ⟨hj1, hjT⟩ := Game.mem_workers.mp hj
    obtain ⟨hi1, hiT⟩ := Game.mem_workers.mp hi
    omega
  cases h.rests hi with
  | start hbox hrecvd _ _ =>
      rw [hbox, full_none] at hcount
      omega
  | asks hbox hrecvd hgo' _ _ =>
      rw [hbox, full_none] at hcount
      omega
  | answers _ _ hgo' _ => omega
  | waits hcounted _ _ _ hw =>
      obtain ⟨j, hj, hzero⟩ := h.exists_not_counted hi hw
      rw [hsame j hj] at hzero
      omega
  | done hbox _ _ _ hsent =>
      -- the message in mailbox 0 has been sent, and all of them have been collected
      have hparent := h.inv.flow.parent
      rw [hm] at hparent
      change _ = g.numberOfGenerations * g.numberOfThreads + 0 + full (s.box 0) at hparent
      have hsum : total g WorkerLoc.sent s.worker ≤
          g.numberOfThreads * g.numberOfGenerations :=
        total_le fun j hj => by rw [hsame j hj, hsent]
      have hfull : full (s.box 0) = 1 := by
        cases hb : s.box 0 with
        | none => exact absurd hb hbox
        | some m => rfl
      rw [hparent, hfull, Nat.mul_comm] at hsum
      omega
  | returned hexit _ _ _ => simp [hrun] at hexit
  | stopped hexit _ _ _ => simp [hrun] at hexit

/-- After all `ALLDONE` messages have been collected every worker has ended. -/
theorem Blocked.not_join_all (h : Blocked g s) {cGen : ℕ}
    (hm : s.main = .join cGen g.numberOfThreads i) (hlast : cGen = g.numberOfGenerations)
    (hi : i ∈ g.workers) : False := by
  have hT := g.one_le_threads
  have hrun := h.join_running hm hi
  obtain ⟨hcount, hgo, hfloor⟩ := h.join_counts hm hi
  have hlt : (s.worker i).sent < g.numberOfGenerations + 1 := by
    cases h.rests hi with
    | start _ _ hsent _ => omega
    | asks _ _ _ hsent _ => omega
    | answers _ _ hgo' _ =>
        have hle := (h.inv.flow.workerOk i hi).goRecvd_le
        omega
    | waits _ _ _ hsent _ => omega
    | done _ _ _ _ hsent => omega
    | returned hexit _ _ _ => simp [hrun] at hexit
    | stopped hexit _ _ _ => simp [hrun] at hexit
  have hsum := total_lt (fun j hj => h.sent_le hj) hi hlt
  have hparent := h.inv.flow.parent
  rw [hm] at hparent
  change _ = cGen * g.numberOfThreads + g.numberOfThreads + full (s.box 0) at hparent
  rw [hparent, Nat.mul_succ, Nat.mul_comm g.numberOfThreads, hlast] at hsum
  omega

/-- `main` waits in a join only after a stop at the last generation, and with
two workers or more. -/
theorem Blocked.join (h : Blocked g s) {u : ThreadId} {l : MainLoc}
    (hcode : mainCode g s.main = .join u l) :
    2 ≤ g.numberOfThreads ∧ ∃ n, s.main = .join g.numberOfGenerations 0 n := by
  have hok := h.inv.flow.mainOk
  obtain ⟨-, cGen, al, n, hm, hn, rfl, -⟩ := mainQuiet_of_join hok hcode
  rw [hm] at hok
  obtain ⟨hc, hcG, hal, hn1, -⟩ := hok
  have hmem : n ∈ g.workers := Game.mem_workers.mpr ⟨hn1, hn⟩
  rcases hal with rfl | ⟨rfl, hlast⟩
  · obtain rfl := h.join_last hm hmem hcG
    exact ⟨h.join_two hm hmem, n, hm⟩
  · exact (h.not_join_all hm hlast hmem).elim

end Blocked

end Life

end OperatingSystems
