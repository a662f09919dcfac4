import OperatingSystems.Life.Counters

/-!
# What each kind of instruction does to the counts

For `main` and for a worker there is one lemma for each kind of instruction. It
says which control points have such an instruction and what the step does to the
counts of `OperatingSystems.Life.Counters`; the local variables stay within
their bounds as long as the messages received are the expected ones.
-/

namespace OperatingSystems

namespace Life

open OperatingSystems.Thread OperatingSystems.Mailbox

variable {g : Game}

section Main

/-- What a send of `main` does to its counts. -/
structure MainSend (g : Game) (l l' : MainLoc) (b : ℕ) (m : Msg) : Prop where
  ok : MainOk g l'
  one_le : 1 ≤ b
  le : b ≤ g.numberOfThreads
  sentTo : ∀ i, 1 ≤ i → i ≤ g.numberOfThreads →
    l'.sentTo i = l.sentTo i + if i = b then 1 else 0
  goSentTo : ∀ i, 1 ≤ i → i ≤ g.numberOfThreads →
    l'.goSentTo i = l.goSentTo i + if i = b ∧ m.type = .go then 1 else 0
  collected : l'.collected g = l.collected g
  rounds : l'.rounds = l.rounds
  first : l.sentTo b = 0 → m = g.rangeMsg (b - 1)
  later : 0 < l.sentTo b → l.sentTo b = l.goSentTo b + 1
  kind : 0 < l.sentTo b → m.type = .go ∨ m.type = .stop

theorem mainSend_of_code {l l' : MainLoc} {b : ℕ} {m : Msg} (hok : MainOk g l)
    (h : mainCode g l = .send b m l') : MainSend g l l' b m := by
  have hT := g.one_le_threads
  cases l with
  | sendRange k =>
      have hk : k < g.numberOfThreads := hok
      have hrange : ¬ (g.rangeMsg k).type = .go := by
        unfold Game.rangeMsg
        split <;> simp
      simp only [mainCode] at h
      split at h
      · rename_i hlt
        obtain ⟨rfl, rfl, rfl⟩ := Instr.send.inj h
        refine ⟨hlt, by omega, by omega, ?_, ?_, rfl, rfl, ?_, ?_, ?_⟩
        · intro i hi hi'
          simp only [MainLoc.sentTo]
          split <;> split <;> split <;> omega
        · intro i hi hi'
          simp [MainLoc.goSentTo, hrange]
        · intro _
          simp
        · simp [MainLoc.sentTo]
        · simp [MainLoc.sentTo]
      · obtain ⟨rfl, rfl, rfl⟩ := Instr.send.inj h
        refine ⟨⟨Nat.zero_le _, rfl, by omega, by omega⟩, by omega, by omega, ?_, ?_, ?_, rfl,
          ?_, ?_, ?_⟩
        · intro i hi hi'
          simp only [MainLoc.sentTo]
          split <;> split <;> split <;> omega
        · intro i hi hi'
          have : ¬ i < 1 := by omega
          simp [MainLoc.goSentTo, hrange, this]
        · simp [MainLoc.collected, MainLoc.rounds, MainLoc.extra]
        · intro _
          rw [show k = g.numberOfThreads - 1 by omega]
        · simp only [MainLoc.sentTo]
          split <;> omega
        · simp only [MainLoc.sentTo]
          split <;> omega
  | sendGo cGen allDoneCounter k =>
      obtain ⟨hc, hal, hk, hk'⟩ := hok
      simp only [mainCode] at h
      split at h
      · rename_i hle
        obtain ⟨rfl, rfl, rfl⟩ := Instr.send.inj h
        refine ⟨⟨hc, hal, by omega, by omega⟩, hk, hle, ?_, ?_, rfl, rfl, ?_, ?_, ?_⟩
        · intro i hi hi'
          simp only [MainLoc.sentTo]
          split <;> split <;> split <;> omega
        · intro i hi hi'
          simp only [MainLoc.goSentTo, and_true]
          split <;> split <;> split <;> omega
        · simp [MainLoc.sentTo]
        · simp [MainLoc.sentTo, MainLoc.goSentTo]
        · simp
      · contradiction
  | sendStop cGen allDoneCounter k =>
      obtain ⟨hc, hc', hal, hk, hk'⟩ := hok
      simp only [mainCode] at h
      split at h
      · rename_i hle
        obtain ⟨rfl, rfl, rfl⟩ := Instr.send.inj h
        refine ⟨⟨hc, hc', hal, by omega, by omega⟩, hk, hle, ?_, ?_, rfl, rfl, ?_, ?_, ?_⟩
        · intro i hi hi'
          simp only [MainLoc.sentTo]
          split <;> split <;> split <;> omega
        · intro i hi hi'
          simp [MainLoc.goSentTo]
        · simp [MainLoc.sentTo]
        · simp [MainLoc.sentTo, MainLoc.goSentTo]
        · simp
      · contradiction
  | _ =>
      simp only [mainCode] at h
      repeat' split at h
      all_goals contradiction

/-- What a receive of `main` does to its counts, for the message it takes. -/
structure MainRecv (g : Game) (l l' : MainLoc) : Prop where
  ok : MainOk g l'
  sentTo : ∀ i, l'.sentTo i = l.sentTo i
  goSentTo : ∀ i, l'.goSentTo i = l.goSentTo i
  collected : l'.collected g = l.collected g + 1
  rounds : l'.rounds = l.rounds

theorem mainRecv_of_code {l : MainLoc} {b : ℕ} {k : Msg → MainLoc} (hok : MainOk g l)
    (h : mainCode g l = .recv b k) :
    b = 0 ∧ ∀ m, (m.type = if l.collected g < g.numberOfGenerations * g.numberOfThreads
      then .genDone else .allDone) → MainRecv g l (k m) := by
  cases l with
  | collect cGen allDoneCounter i =>
      obtain ⟨hc, hi, hi', hal⟩ := hok
      simp only [mainCode] at h
      split at h
      · rename_i hle
        obtain ⟨rfl, rfl⟩ := Instr.recv.inj h
        refine ⟨rfl, fun m hm => ?_⟩
        have hiff : MainLoc.collected g (.collect cGen allDoneCounter i) <
            g.numberOfGenerations * g.numberOfThreads ↔ cGen < g.numberOfGenerations := by
          simp only [MainLoc.collected, MainLoc.rounds, MainLoc.extra]
          constructor
          · intro hlt
            by_contra hge
            obtain rfl : cGen = g.numberOfGenerations := by omega
            omega
          · intro hlt
            have := Nat.mul_le_mul_right g.numberOfThreads hlt
            rw [Nat.succ_mul] at this
            omega
        rw [if_congr hiff rfl rfl] at hm
        have hcount : ∀ al, MainLoc.collected g (.collect cGen al (i + 1)) =
            MainLoc.collected g (.collect cGen allDoneCounter i) + 1 := by
          intro al
          simp only [MainLoc.collected, MainLoc.rounds, MainLoc.extra]
          omega
        by_cases hlt : cGen < g.numberOfGenerations
        · rw [if_pos hlt] at hm hal
          simp only [hm, if_true]
          exact ⟨⟨hc, by omega, by omega, by rw [if_pos hlt, hal]⟩, fun _ => rfl, fun _ => rfl,
            hcount _, rfl⟩
        · rw [if_neg hlt] at hm hal
          simp only [hm, reduceCtorEq, if_false, if_true]
          exact ⟨⟨hc, by omega, by omega, by rw [if_neg hlt]; omega⟩, fun _ => rfl,
            fun _ => rfl, hcount _, rfl⟩
      · split at h <;> contradiction
  | _ =>
      simp only [mainCode] at h
      repeat' split at h
      all_goals contradiction

/-- What the steps of `main` that send and receive nothing do to its counts. -/
structure MainQuiet (g : Game) (l l' : MainLoc) : Prop where
  ok : MainOk g l'
  sentTo : ∀ i, 1 ≤ i → i ≤ g.numberOfThreads → l'.sentTo i = l.sentTo i
  goSentTo : ∀ i, 1 ≤ i → i ≤ g.numberOfThreads → l'.goSentTo i = l.goSentTo i
  collected : l'.collected g = l.collected g
  rounds : l'.rounds = l.rounds ∨
    l'.rounds = l.rounds + 1 ∧ l'.rounds ≤ g.numberOfGenerations ∧
      l.collected g = l'.rounds * g.numberOfThreads ∧
      ∀ i, 1 ≤ i → i ≤ g.numberOfThreads → l.goSentTo i = l'.rounds

/-- A step that leaves all counts as they are. -/
theorem MainQuiet.of_counts {l l' : MainLoc} (hok : MainOk g l')
    (hsent : ∀ i, 1 ≤ i → i ≤ g.numberOfThreads → l'.sentTo i = l.sentTo i)
    (hgo : ∀ i, 1 ≤ i → i ≤ g.numberOfThreads → l'.goSentTo i = l.goSentTo i)
    (hrounds : l'.rounds = l.rounds) (hextra : l'.extra = l.extra) : MainQuiet g l l' :=
  ⟨hok, hsent, hgo, by rw [MainLoc.collected, MainLoc.collected, hrounds, hextra], .inl hrounds⟩

/-- At the end of a collection round `main` has received a message of every worker. -/
theorem mainQuiet_of_collect {cGen allDoneCounter i : ℕ} {f : Memory → Memory × MainLoc}
    (hok : MainOk g (.collect cGen allDoneCounter i))
    (h : mainCode g (.collect cGen allDoneCounter i) = .access f) (mem : Memory) :
    MainQuiet g (.collect cGen allDoneCounter i) (f mem).2 ∧
      (f mem).1.barrierCount = mem.barrierCount := by
  have hT := g.one_le_threads
  obtain ⟨hc, hi, hi', hal⟩ := hok
  simp only [mainCode] at h
  split at h
  · contradiction
  · rename_i hgt
    obtain rfl : i = g.numberOfThreads + 1 := by omega
    split at h
    · rename_i hall
      obtain rfl := Instr.access.inj h
      have hlast : cGen = g.numberOfGenerations := by
        split at hal <;> omega
      have hG := g.one_le_generations
      refine ⟨.of_counts ⟨by omega, hc, .inr ⟨hall, hlast⟩⟩ (fun _ _ _ => rfl) ?_ rfl ?_, rfl⟩
      · intro j _ _
        simp only [MainLoc.goSentTo]
        rw [if_neg (by omega)]
      · simp [MainLoc.extra, hall]
    · rename_i hall
      obtain rfl := Instr.access.inj h
      have hlt : cGen < g.numberOfGenerations := by
        split at hal <;> omega
      rw [if_pos hlt] at hal
      have hcoll : MainLoc.collected g (.collect cGen allDoneCounter
          (g.numberOfThreads + 1)) = (cGen + 1) * g.numberOfThreads := by
        simp [MainLoc.collected, MainLoc.rounds, MainLoc.extra, Nat.succ_mul]
      refine ⟨⟨⟨by omega, by omega, hal⟩, fun _ _ _ => rfl, fun _ _ _ => rfl, ?_,
        .inr ⟨rfl, hlt, hcoll, fun _ _ _ => rfl⟩⟩, rfl⟩
      rw [hcoll]
      simp [MainLoc.collected, MainLoc.rounds, MainLoc.extra]

/-- A step inside a loop leaves all counts as they are. -/
theorem mainQuiet_stay {l l' : MainLoc} (hok : MainOk g l') (hsent : l'.sentTo = l.sentTo)
    (hgo : l'.goSentTo = l.goSentTo) (hrounds : l'.rounds = l.rounds)
    (hextra : l'.extra = l.extra) : MainQuiet g l l' :=
  .of_counts hok (fun _ _ _ => congrFun hsent _) (fun _ _ _ => congrFun hgo _) hrounds hextra

/-- A step of a loop over the cells: past a cell, past a line, or out of the loop. -/
theorem mainQuiet_scan (l : MainLoc) {line : MainLoc} {i j : ℕ}
    {f inside : Memory → Memory × MainLoc}
    {done : Instr ThreadId ℕ BarrierSem Msg Memory MainLoc}
    (h : (if i < g.lineSize then if j < g.columnSize then .access inside else goto line
      else done) = Instr.access f)
    (hinside : ∀ mem, MainQuiet g l (inside mem).2 ∧
      (inside mem).1.barrierCount = mem.barrierCount)
    (hline : MainQuiet g l line) (mem : Memory)
    (hdone : done = .access f →
      MainQuiet g l (f mem).2 ∧ (f mem).1.barrierCount = mem.barrierCount) :
    MainQuiet g l (f mem).2 ∧ (f mem).1.barrierCount = mem.barrierCount := by
  rcases access_of_scan h with ⟨-, -, rfl⟩ | ⟨-, -, rfl⟩ | ⟨-, h⟩
  · exact hinside mem
  · exact ⟨hline, rfl⟩
  · exact hdone h

/-- After a round the workers are told to stop. -/
theorem mainQuiet_sendStop {l : MainLoc} {cGen : ℕ} (hc : 1 ≤ cGen)
    (hc' : cGen ≤ g.numberOfGenerations)
    (hsent : l.sentTo = (MainLoc.isAllZero cGen 0 0 0 true).sentTo)
    (hgo : l.goSentTo = (MainLoc.isAllZero cGen 0 0 0 true).goSentTo)
    (hrounds : l.rounds = (MainLoc.isAllZero cGen 0 0 0 true).rounds)
    (hextra : l.extra = (MainLoc.isAllZero cGen 0 0 0 true).extra) :
    MainQuiet g l (.sendStop cGen 0 1) := by
  refine .of_counts ⟨hc, hc', rfl, le_refl _, by omega⟩ ?_ ?_ hrounds.symm hextra.symm
  · intro k hk _
    rw [hsent]
    simp only [MainLoc.sentTo]
    rw [if_neg (by omega)]
  · intro k _ _
    rw [hgo]
    rfl

theorem mainQuiet_of_access {l : MainLoc} {f : Memory → Memory × MainLoc} (hok : MainOk g l)
    (h : mainCode g l = .access f) (mem : Memory) :
    MainQuiet g l (f mem).2 ∧ (f mem).1.barrierCount = mem.barrierCount := by
  have hT := g.one_le_threads
  cases l with
  | create k =>
      simp only [mainCode] at h
      split at h
      · contradiction
      · obtain rfl := Instr.access.inj h
        exact ⟨.of_counts hT (by simp [MainLoc.sentTo]; omega) (by simp [MainLoc.goSentTo]) rfl rfl,
          rfl⟩
  | sendRange k =>
      simp only [mainCode] at h
      split at h <;> contradiction
  | sendGo cGen allDoneCounter k =>
      obtain ⟨hc, hal, hk, hk'⟩ := hok
      simp only [mainCode] at h
      split at h
      · contradiction
      · rename_i hgt
        obtain rfl := Instr.access.inj h
        refine ⟨.of_counts ⟨hc, le_refl _, by omega, ?_⟩ ?_ ?_ rfl rfl, rfl⟩
        · split <;> omega
        · intro i hi hi'
          simp only [MainLoc.sentTo]
          rw [if_pos (by omega)]
        · intro i hi hi'
          simp only [MainLoc.goSentTo]
          rw [if_pos (by omega)]
  | collect cGen allDoneCounter i => exact mainQuiet_of_collect hok h mem
  | isAllZero cGen allDoneCounter i j isZero =>
      have hok' := hok
      obtain ⟨hc, hc', rfl⟩ := hok'
      refine mainQuiet_scan (.isAllZero cGen 0 i j isZero) h
        (fun _ => ⟨mainQuiet_stay hok rfl rfl rfl rfl, rfl⟩)
        (mainQuiet_stay hok rfl rfl rfl rfl) mem fun h => ?_
      split at h <;> obtain rfl := Instr.access.inj h
      · exact ⟨mainQuiet_sendStop hc hc' rfl rfl rfl rfl, rfl⟩
      · exact ⟨mainQuiet_stay hok rfl rfl rfl rfl, rfl⟩
  | hasNotChanged cGen allDoneCounter i j notChanged =>
      have hok' := hok
      obtain ⟨hc, hc', rfl⟩ := hok'
      refine mainQuiet_scan (.hasNotChanged cGen 0 i j notChanged) h
        (fun _ => ⟨mainQuiet_stay hok rfl rfl rfl rfl, rfl⟩)
        (mainQuiet_stay hok rfl rfl rfl rfl) mem fun h => ?_
      split at h <;> obtain rfl := Instr.access.inj h
      · exact ⟨mainQuiet_sendStop hc hc' rfl rfl rfl rfl, rfl⟩
      · exact ⟨mainQuiet_stay hok rfl rfl rfl rfl, rfl⟩
  | sendStop cGen allDoneCounter k =>
      obtain ⟨hc, hc', rfl, hk, hk'⟩ := hok
      simp only [mainCode] at h
      split at h
      · contradiction
      · rename_i hgt
        obtain rfl := Instr.access.inj h
        refine ⟨.of_counts ⟨hc, hc', .inl rfl⟩ ?_ (fun _ _ _ => rfl) rfl rfl, rfl⟩
        intro i hi hi'
        simp only [MainLoc.sentTo]
        rw [if_pos (by omega)]
  | updateMatrix cGen allDoneCounter i j =>
      have hok' := hok
      obtain ⟨hc, hc', rfl⟩ := hok'
      refine mainQuiet_scan (.updateMatrix cGen 0 i j) h
        (fun _ => ⟨mainQuiet_stay hok rfl rfl rfl rfl, rfl⟩)
        (mainQuiet_stay hok rfl rfl rfl rfl) mem fun h => ?_
      split at h
      · omega
      · obtain rfl := Instr.access.inj h
        refine ⟨.of_counts ⟨hc', rfl, le_refl _, by omega⟩ ?_ ?_ rfl rfl, rfl⟩
        · intro k hk _
          simp only [MainLoc.sentTo]
          rw [if_neg (by omega)]
        · intro k hk _
          simp only [MainLoc.goSentTo]
          rw [if_neg (by omega)]
          rfl
  | print cGen allDoneCounter i j =>
      have hok' := hok
      obtain ⟨hc, hc', hal⟩ := hok'
      refine mainQuiet_scan (.print cGen allDoneCounter i j) h
        (fun _ => ⟨mainQuiet_stay hok rfl rfl rfl rfl, rfl⟩)
        (mainQuiet_stay hok rfl rfl rfl rfl) mem fun h => ?_
      obtain rfl := Instr.access.inj h
      exact ⟨mainQuiet_stay ⟨hc, hc', hal, le_refl _, by omega⟩ rfl rfl rfl rfl, rfl⟩
  | join cGen allDoneCounter i =>
      obtain ⟨hc, hc', hal, hi, hi'⟩ := hok
      simp only [mainCode] at h
      split at h
      · contradiction
      · obtain rfl := Instr.access.inj h
        exact ⟨.of_counts ⟨hc, hc', hal⟩ (fun _ _ _ => rfl) (fun _ _ _ => rfl) rfl rfl, rfl⟩
  | finished cGen allDoneCounter =>
      simp only [mainCode] at h
      contradiction

theorem mainQuiet_of_create {l l' : MainLoc} {u : ThreadId} (hok : MainOk g l)
    (h : mainCode g l = .create u l') :
    MainQuiet g l l' ∧ ∃ k, l = .create k ∧ k ≤ g.numberOfThreads ∧ u = .worker k ∧
      l' = .create (k + 1) := by
  cases l with
  | create k =>
      obtain ⟨hk, hk'⟩ := hok
      simp only [mainCode] at h
      split at h
      · rename_i hle
        obtain ⟨rfl, rfl⟩ := Instr.create.inj h
        exact ⟨.of_counts ⟨by omega, by omega⟩ (fun _ _ _ => rfl) (fun _ _ _ => rfl) rfl rfl,
          k, rfl, hle, rfl, rfl⟩
      · contradiction
  | _ =>
      simp only [mainCode] at h
      repeat' split at h
      all_goals contradiction

theorem mainQuiet_of_join {l l' : MainLoc} {u : ThreadId} (hok : MainOk g l)
    (h : mainCode g l = .join u l') :
    MainQuiet g l l' ∧ ∃ cGen al k, l = .join cGen al k ∧ k ≤ g.numberOfThreads ∧
      u = .worker k ∧ l' = .join cGen al (k + 1) := by
  cases l with
  | join cGen allDoneCounter k =>
      obtain ⟨hc, hc', hal, hk, hk'⟩ := hok
      simp only [mainCode] at h
      split at h
      · rename_i hle
        obtain ⟨rfl, rfl⟩ := Instr.join.inj h
        exact ⟨.of_counts ⟨hc, hc', hal, by omega, by omega⟩ (fun _ _ _ => rfl)
          (fun _ _ _ => rfl) rfl rfl, cGen, allDoneCounter, k, rfl, hle, rfl, rfl⟩
      · contradiction
  | _ =>
      simp only [mainCode] at h
      repeat' split at h
      all_goals contradiction

theorem finished_of_exit {l : MainLoc} (h : mainCode g l = .exit) :
    ∃ cGen al, l = .finished cGen al := by
  cases l with
  | finished cGen allDoneCounter => exact ⟨_, _, rfl⟩
  | _ =>
      simp only [mainCode] at h
      repeat' split at h
      all_goals contradiction

namespace MainLoc

/-- The first worker that `main` has not created. -/
def nextCreate (g : Game) : MainLoc → ℕ
  | .create k => k
  | _ => g.numberOfThreads + 1

/-- The first worker that `main` has not joined. -/
def nextJoin (g : Game) : MainLoc → ℕ
  | .join _ _ k => k
  | .finished _ _ => g.numberOfThreads + 1
  | _ => 1

end MainLoc

/-- Sending, receiving and shared memory neither create nor join a thread. -/
theorem lives_of_code {l : MainLoc} (hok : MainOk g l) :
    (∀ b m l', mainCode g l = .send b m l' →
        l'.nextCreate g = l.nextCreate g ∧ l'.nextJoin g = l.nextJoin g) ∧
      (∀ b k m, mainCode g l = .recv b k →
        (k m).nextCreate g = l.nextCreate g ∧ (k m).nextJoin g = l.nextJoin g) ∧
      ∀ f mem, mainCode g l = .access f →
        (f mem).2.nextCreate g = l.nextCreate g ∧ (f mem).2.nextJoin g = l.nextJoin g := by
  refine ⟨?_, ?_, ?_⟩
  · intro b m l' h
    cases l <;> simp only [mainCode] at h
    all_goals
      repeat' split at h
      all_goals
        first | contradiction | (obtain ⟨rfl, rfl, rfl⟩ := Instr.send.inj h; exact ⟨rfl, rfl⟩)
  · intro b k m h
    cases l <;> simp only [mainCode] at h
    all_goals
      repeat' split at h
      all_goals first | contradiction | (obtain ⟨rfl, rfl⟩ := Instr.recv.inj h)
    dsimp only
    repeat' split
    all_goals exact ⟨rfl, rfl⟩
  · intro f mem h
    cases l <;> simp only [mainCode] at h
    all_goals
      repeat' split at h
      all_goals first | contradiction | (obtain rfl := Instr.access.inj h)
      all_goals simp only [MainLoc.nextCreate, MainLoc.nextJoin, and_self, true_and, and_true]
    · obtain ⟨-, hk⟩ := hok
      omega
    · obtain ⟨-, -, -, -, hk⟩ := hok
      omega

end Main

section Worker

variable {i : ℕ}

/-- A worker that has yet to release the barrier when `A` posts of
`alldone_sem` have been made. -/
def WorkerLoc.Releasing (A : ℕ) : WorkerLoc → Prop
  | .unlockCount _ => True
  | .testCount _ => True
  | .postAll _ k => k ≤ A
  | _ => False

theorem WorkerOk.varsOk {l : WorkerLoc} {v : WorkerVars} (h : WorkerOk g i l)
    (hv : l.vars? = some v) : VarsOk g i v :=
  h.vars v hv

/-- The test of the generation loop keeps the local variables. -/
theorem forGen_ok {v : WorkerVars} (hv : VarsOk g i v)
    (hgen : v.gen ≤ g.numberOfGenerations + 1) : WorkerOk g i (forGen g v) := by
  unfold forGen
  split
  · rename_i hle
    refine ⟨?_, fun _ => hle, ?_, ?_, ?_, ?_⟩ <;>
      simp [WorkerLoc.vars?, WorkerLoc.inBarrier, WorkerLoc.counted, hv]
  · refine ⟨?_, ?_, fun _ => ?_, ?_, ?_, ?_⟩ <;>
      simp [WorkerLoc.vars?, WorkerLoc.inBarrier, hv, WorkerLoc.gen]
    omega

@[simp] theorem forGen_recvd (v : WorkerVars) : (forGen g v).recvd = v.gen := by
  unfold forGen
  split <;> rfl

@[simp] theorem forGen_goRecvd (v : WorkerVars) : (forGen g v).goRecvd = v.gen - 1 := by
  unfold forGen
  split <;> rfl

@[simp] theorem forGen_sent (v : WorkerVars) : (forGen g v).sent = v.gen - 1 := by
  unfold forGen
  split <;> rfl

@[simp] theorem forGen_counted (v : WorkerVars) : (forGen g v).counted = 0 := by
  unfold forGen
  split <;> rfl

@[simp] theorem forGen_critical (v : WorkerVars) : (forGen g v).critical = 0 := by
  unfold forGen
  split <;> rfl

@[simp] theorem forGen_passed (v : WorkerVars) : (forGen g v).passed = 0 := by
  unfold forGen
  split <;> rfl

@[simp] theorem forGen_halted (v : WorkerVars) : (forGen g v).halted = 0 := by
  unfold forGen
  split <;> rfl

/-- A step of a worker that leaves its message counts as they are. -/
structure WorkerQuiet (g : Game) (i : ℕ) (l l' : WorkerLoc) : Prop where
  ok : WorkerOk g i l'
  recvd : l'.recvd = l.recvd
  goRecvd : l'.goRecvd = l.goRecvd
  sent : l'.sent = l.sent
  halted : l'.halted = l.halted

/-- A step of a worker that does not move it within the barrier. -/
structure SameBarrier (l l' : WorkerLoc) : Prop where
  counted : l'.counted = l.counted
  critical : l'.critical = l.critical
  passed : l'.passed = l.passed
  posting : l'.posting = l.posting
  releasing : ∀ A, l.Releasing A → l'.Releasing A

/-- What a send of a worker does to its counts. -/
structure WorkerSend (g : Game) (i : ℕ) (l l' : WorkerLoc) (m : Msg) : Prop where
  ok : WorkerOk g i l'
  recvd : l'.recvd = l.recvd
  goRecvd : l'.goRecvd = l.goRecvd
  sent : l'.sent = l.sent + 1
  halted : l'.halted = l.halted
  barrier : SameBarrier l l'
  kind : m.type = .genDone ∧ l.computing = 1 ∨ m.type = .allDone ∧ l.passed = 1

theorem workerSend_of_code {l l' : WorkerLoc} {b : ℕ} {m : Msg} (hok : WorkerOk g i l)
    (h : linesthread g i l = .send b m l') : b = 0 ∧ WorkerSend g i l l' m := by
  cases l with
  | sendGenDone v =>
      simp only [linesthread] at h
      obtain ⟨rfl, rfl, rfl⟩ := Instr.send.inj h
      obtain ⟨hfrom, hto, hone⟩ := hok.varsOk rfl
      have hle : v.gen ≤ g.numberOfGenerations := hok.inLoop rfl
      refine ⟨rfl, forGen_ok ⟨hfrom, hto, Nat.le_add_left _ _⟩ (Nat.succ_le_succ hle), ?_, ?_, ?_,
        ?_, ⟨?_, ?_, ?_, ?_, ?_⟩, .inl ⟨hok.genDone v rfl, rfl⟩⟩
      · exact forGen_recvd _
      · rw [forGen_goRecvd]
        change v.gen + 1 - 1 = v.gen - 1 + 1
        omega
      · rw [forGen_sent]
        change v.gen + 1 - 1 = v.gen - 1 + 1
        omega
      · exact forGen_halted _
      · exact forGen_counted _
      · exact forGen_critical _
      · exact forGen_passed _
      · unfold forGen
        split <;> rfl
      · exact fun A h => h.elim
  | sendAllDone v =>
      simp only [linesthread] at h
      obtain ⟨rfl, rfl, rfl⟩ := Instr.send.inj h
      refine ⟨rfl, ⟨fun w hw => hok.vars w hw, ?_, fun _ => hok.pastLoop rfl, ?_, ?_, ?_⟩, rfl, rfl,
        rfl, rfl, ⟨rfl, rfl, rfl, rfl, fun A h => h⟩, .inr ⟨hok.allDone v rfl, rfl⟩⟩
      · exact fun h => absurd h (by simp [WorkerLoc.inBarrier, WorkerLoc.counted])
      · simp
      · simp
      · simp
  | _ =>
      simp only [linesthread] at h
      repeat' split at h
      all_goals contradiction

/-- The part of a worker's channel that its receive relies on: what the message
in its mailbox is. -/
def Expected (g : Game) (i goSent : ℕ) (l : WorkerLoc) (m : Msg) : Prop :=
  (l.recvd = 0 → m = g.rangeMsg (i - 1)) ∧
    (0 < l.recvd → m.type = if l.recvd ≤ goSent then .go else .stop)

/-- What a receive of a worker does to its counts. -/
structure WorkerRecv (g : Game) (i goSent : ℕ) (l l' : WorkerLoc) : Prop where
  ok : WorkerOk g i l'
  recvd : l'.recvd = l.recvd + 1
  goRecvd : l'.goRecvd ≤ goSent
  sent : l'.sent = l.sent
  halted : l'.halted = 1 → l.recvd = goSent + 1
  barrier : SameBarrier l l'

theorem workerRecv_of_code {l : WorkerLoc} {b : ℕ} {k : Msg → WorkerLoc} (hok : WorkerOk g i l)
    (h : linesthread g i l = .recv b k) :
    b = i ∧ ∀ goSent m, l.goRecvd ≤ goSent → Expected g i goSent l m →
      WorkerRecv g i goSent l (k m) := by
  cases l with
  | recvRange =>
      simp only [linesthread] at h
      obtain ⟨rfl, rfl⟩ := Instr.recv.inj h
      refine ⟨rfl, fun goSent m hgo hm => ?_⟩
      have hG := g.one_le_generations
      obtain rfl : m = g.rangeMsg (i - 1) := hm.1 rfl
      have htype : (g.rangeMsg (i - 1)).type = .range := by
        unfold Game.rangeMsg
        split <;> rfl
      simp only [htype, ne_eq, not_true_eq_false, if_false]
      refine ⟨forGen_ok ⟨rfl, rfl, le_refl _⟩ (Nat.succ_le_succ (Nat.zero_le _)), ?_, ?_, ?_,
        ?_, ?_⟩
      · rw [forGen_recvd]
        rfl
      · rw [forGen_goRecvd]
        exact Nat.zero_le _
      · rw [forGen_sent]
        rfl
      · rw [forGen_halted]
        exact fun h => absurd h (by simp)
      · refine ⟨forGen_counted _, forGen_critical _, forGen_passed _, ?_, fun A h => h.elim⟩
        unfold forGen
        split <;> rfl
  | recvGo v =>
      simp only [linesthread] at h
      obtain ⟨rfl, rfl⟩ := Instr.recv.inj h
      refine ⟨rfl, fun goSent m hgo hm => ?_⟩
      have hvars := hok.varsOk rfl
      have hle : v.gen ≤ g.numberOfGenerations := hok.inLoop rfl
      have hgo' : v.gen - 1 ≤ goSent := hgo
      have htype := hm.2 hvars.one_le
      have hone := hvars.one_le
      change m.type = if v.gen ≤ goSent then _ else _ at htype
      by_cases hsent : v.gen ≤ goSent
      · rw [if_pos hsent] at htype
        simp only [htype, reduceCtorEq, if_false, if_true]
        refine ⟨⟨?_, fun _ => hle, ?_, ?_, ?_, ?_⟩, rfl, ?_, rfl, ?_, rfl, rfl, rfl, rfl,
          fun A h => h⟩
        · rintro _ ⟨rfl⟩
          exact ⟨hvars.lineFrom, hvars.lineTo, hvars.one_le⟩
        · exact fun h => absurd h (by simp [WorkerLoc.inBarrier, WorkerLoc.counted])
        · simp
        · simp
        · simp
        · change v.gen - 1 + 1 ≤ goSent
          omega
        · exact fun h => absurd h (by simp [WorkerLoc.halted])
      · rw [if_neg hsent] at htype
        simp only [htype, if_true]
        refine ⟨⟨?_, fun _ => hle, ?_, ?_, ?_, ?_⟩, rfl, hgo, rfl, ?_, rfl, rfl, rfl, rfl,
          fun A h => h⟩
        · rintro _ ⟨rfl⟩
          exact ⟨hvars.lineFrom, hvars.lineTo, hvars.one_le⟩
        · exact fun h => absurd h (by simp [WorkerLoc.inBarrier, WorkerLoc.counted])
        · simp
        · simp
        · simp
        · intro _
          change v.gen = goSent + 1
          omega
  | _ =>
      simp only [linesthread] at h
      repeat' split at h
      all_goals contradiction

theorem VarsOk.congr {v w : WorkerVars} (h : VarsOk g i v) (hfrom : w.lineFrom = v.lineFrom)
    (hto : w.lineTo = v.lineTo) (hgen : w.gen = v.gen) : VarsOk g i w :=
  ⟨hfrom.trans h.lineFrom, hto.trans h.lineTo, hgen ▸ h.one_le⟩

/-- A step that stays on the same side of the generation loop. -/
theorem WorkerOk.move {l l' : WorkerLoc} {v w : WorkerVars} (hok : WorkerOk g i l)
    (hv : l.vars? = some v) (hw : l'.vars? = some w) (hfrom : w.lineFrom = v.lineFrom)
    (hto : w.lineTo = v.lineTo) (hgen : w.gen = v.gen) (hin : l'.inBarrier = l.inBarrier)
    (hgenDone : ∀ v, l' = .sendGenDone v → v.message.type = .genDone)
    (hallDone : ∀ v, l' = .sendAllDone v → v.message.type = .allDone) : WorkerOk g i l' := by
  have hgen' : l'.gen = l.gen := by simp only [WorkerLoc.gen, hv, hw, hgen]
  refine ⟨?_, ?_, ?_, hgenDone, hallDone, ?_⟩
  · intro u hu
    obtain rfl : w = u := Option.some.inj (hw.symm.trans hu)
    exact (hok.varsOk hv).congr hfrom hto hgen
  · intro h
    exact hgen' ▸ hok.inLoop (hin ▸ h)
  · intro h
    exact hgen' ▸ hok.pastLoop (hin ▸ h)
  · rintro rfl
    contradiction

/-- The steps of a worker on shared memory, by where they happen. -/
theorem workerAccess_of_code {l : WorkerLoc} {f : Memory → Memory × WorkerLoc}
    (hok : WorkerOk g i l) (h : linesthread g i l = .access f) (mem : Memory) :
    WorkerQuiet g i l (f mem).2 ∧
      ((f mem).1.barrierCount = mem.barrierCount ∧ SameBarrier l (f mem).2 ∨
        (∃ v, l = .incrementCount v ∧ (f mem).2 = .unlockCount v ∧
          (f mem).1.barrierCount = mem.barrierCount + 1) ∨
        (∃ v, l = .testCount v ∧ (f mem).1 = mem ∧
          (f mem).2 = if mem.barrierCount = g.numberOfThreads then .postAll v 0
            else .waitAll v) ∨
        ∃ v k, l = .postAll v k ∧ g.numberOfThreads < k ∧ (f mem).1 = mem ∧
          (f mem).2 = .waitAll v) := by
  cases l with
  | row v line column =>
      simp only [linesthread] at h
      (repeat' split at h) <;> obtain rfl := Instr.access.inj h
      · exact ⟨⟨hok.move rfl rfl rfl rfl rfl rfl (by simp) (by simp), rfl, rfl, rfl, rfl⟩,
          .inl ⟨rfl, rfl, rfl, rfl, rfl, fun A h => h⟩⟩
      · exact ⟨⟨hok.move rfl rfl rfl rfl rfl rfl (by simp) (by simp), rfl, rfl, rfl, rfl⟩,
          .inl ⟨rfl, rfl, rfl, rfl, rfl, fun A h => h⟩⟩
      · refine ⟨⟨hok.move rfl rfl rfl rfl rfl rfl ?_ (by simp), rfl, rfl, rfl, rfl⟩,
          .inl ⟨rfl, rfl, rfl, rfl, rfl, fun A h => h⟩⟩
        rintro _ ⟨rfl⟩
        rfl
  | neighbor v line column k counter =>
      simp only [linesthread] at h
      split at h <;> obtain rfl := Instr.access.inj h
      · exact ⟨⟨hok.move rfl rfl rfl rfl rfl rfl (by simp) (by simp), rfl, rfl, rfl, rfl⟩,
          .inl ⟨rfl, rfl, rfl, rfl, rfl, fun A h => h⟩⟩
      · exact ⟨⟨hok.move rfl rfl rfl rfl rfl rfl (by simp) (by simp), rfl, rfl, rfl, rfl⟩,
          .inl ⟨rfl, rfl, rfl, rfl, rfl, fun A h => h⟩⟩
  | incrementCount v =>
      simp only [linesthread] at h
      obtain rfl := Instr.access.inj h
      exact ⟨⟨hok.move rfl rfl rfl rfl rfl rfl (by simp) (by simp), rfl, rfl, rfl, rfl⟩,
        .inr (.inl ⟨v, rfl, rfl, rfl⟩)⟩
  | testCount v =>
      simp only [linesthread] at h
      obtain rfl := Instr.access.inj h
      refine ⟨?_, .inr (.inr (.inl ⟨v, rfl, rfl, rfl⟩))⟩
      dsimp only
      split
      · exact ⟨hok.move rfl rfl rfl rfl rfl rfl (by simp) (by simp), rfl, rfl, rfl, rfl⟩
      · exact ⟨hok.move rfl rfl rfl rfl rfl rfl (by simp) (by simp), rfl, rfl, rfl, rfl⟩
  | postAll v k =>
      simp only [linesthread] at h
      split at h
      · contradiction
      · rename_i hk
        obtain rfl := Instr.access.inj h
        exact ⟨⟨hok.move rfl rfl rfl rfl rfl rfl (by simp) (by simp), rfl, rfl, rfl, rfl⟩,
          .inr (.inr (.inr ⟨v, k, rfl, by omega, rfl, rfl⟩))⟩
  | _ =>
      simp only [linesthread] at h
      contradiction

theorem lockCount_of_wait {l l' : WorkerLoc} (hok : WorkerOk g i l)
    (h : linesthread g i l = .wait .genDoneSem l') :
    WorkerQuiet g i l l' ∧ ∃ v, l = .lockCount v ∧ l' = .incrementCount v := by
  cases l with
  | lockCount v =>
      simp only [linesthread] at h
      obtain ⟨-, rfl⟩ := Instr.wait.inj h
      exact ⟨⟨hok.move rfl rfl rfl rfl rfl rfl (by simp) (by simp), rfl, rfl, rfl, rfl⟩,
        v, rfl, rfl⟩
  | _ =>
      simp only [linesthread] at h
      repeat' split at h
      all_goals simp at h

theorem unlockCount_of_post {l l' : WorkerLoc} (hok : WorkerOk g i l)
    (h : linesthread g i l = .post .genDoneSem l') :
    WorkerQuiet g i l l' ∧ ∃ v, l = .unlockCount v ∧ l' = .testCount v := by
  cases l with
  | unlockCount v =>
      simp only [linesthread] at h
      obtain ⟨-, rfl⟩ := Instr.post.inj h
      exact ⟨⟨hok.move rfl rfl rfl rfl rfl rfl (by simp) (by simp), rfl, rfl, rfl, rfl⟩,
        v, rfl, rfl⟩
  | _ =>
      simp only [linesthread] at h
      repeat' split at h
      all_goals simp at h

theorem waitAll_of_wait {l l' : WorkerLoc} (hok : WorkerOk g i l)
    (h : linesthread g i l = .wait .allDoneSem l') :
    WorkerQuiet g i l l' ∧ ∃ v w, l = .waitAll v ∧ l' = .sendAllDone w := by
  cases l with
  | waitAll v =>
      simp only [linesthread] at h
      obtain ⟨-, rfl⟩ := Instr.wait.inj h
      refine ⟨⟨hok.move rfl rfl rfl rfl rfl rfl (by simp) ?_, rfl, rfl, rfl, rfl⟩, v, _, rfl, rfl⟩
      rintro _ ⟨rfl⟩
      rfl
  | _ =>
      simp only [linesthread] at h
      repeat' split at h
      all_goals simp at h

theorem postAll_of_post {l l' : WorkerLoc} (hok : WorkerOk g i l)
    (h : linesthread g i l = .post .allDoneSem l') :
    WorkerQuiet g i l l' ∧ ∃ v k, l = .postAll v k ∧ l' = .postAll v (k + 1) := by
  cases l with
  | postAll v k =>
      simp only [linesthread] at h
      split at h
      · obtain ⟨-, rfl⟩ := Instr.post.inj h
        exact ⟨⟨hok.move rfl rfl rfl rfl rfl rfl (by simp) (by simp), rfl, rfl, rfl, rfl⟩,
          v, k, rfl, rfl⟩
      · contradiction
  | _ =>
      simp only [linesthread] at h
      repeat' split at h
      all_goals simp at h

theorem ended_of_exit {l : WorkerLoc} (h : linesthread g i l = .exit) :
    l.ended = 1 ∨ l.halted = 1 := by
  cases l with
  | returned v => exact .inl rfl
  | stopped v => exact .inr rfl
  | _ =>
      simp only [linesthread] at h
      repeat' split at h
      all_goals simp at h

theorem wrongMessage_of_abort {l : WorkerLoc} (h : linesthread g i l = .abort) :
    l = .wrongMessage := by
  cases l with
  | wrongMessage => rfl
  | _ =>
      simp only [linesthread] at h
      repeat' split at h
      all_goals simp at h

end Worker

end Life

end OperatingSystems
