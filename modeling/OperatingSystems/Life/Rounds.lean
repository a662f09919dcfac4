import OperatingSystems.Life.Refinement
import OperatingSystems.Thread.Received

/-!
# The rounds of main and the barrier of the workers

The messages that `main` takes out of mailbox 0 have, in order, the types that
its rounds expect: GENDONE from everybody in each of the rounds up to the last
generation, and ALLDONE from everybody in the round after it. No worker goes
through the barrier before all last GENDONE messages have been deposited, and
once all workers have compared `barrierCount` there are enough posts of
`alldone_sem` for all that still wait.
-/

namespace OperatingSystems

namespace Life

open OperatingSystems.Thread OperatingSystems.Mailbox

variable {g : Game}

section Types

/-- The type of the messages of the round after `cGen` complete ones. -/
def Game.roundType (g : Game) (cGen : ℕ) : MsgType :=
  if cGen < g.numberOfGenerations then .genDone else .allDone

/-- The types of the messages that `main` takes out, in order. -/
def Game.types (g : Game) (n : ℕ) : List MsgType :=
  (List.range n).map (parentType g)

theorem Game.types_succ (n : ℕ) : g.types (n + 1) = g.types n ++ [parentType g n] := by
  rw [Game.types, List.range_succ, List.map_append]
  rfl

theorem Game.length_types (n : ℕ) : (g.types n).length = n := by
  simp [Game.types]

theorem Game.types_of_le {n : ℕ} (h : n ≤ g.numberOfGenerations * g.numberOfThreads) :
    g.types n = List.replicate n .genDone := by
  refine List.eq_replicate_iff.mpr ⟨Game.length_types n, fun ty hty => ?_⟩
  obtain ⟨k, hk, rfl⟩ := List.mem_map.mp hty
  exact if_pos (lt_of_lt_of_le (List.mem_range.mp hk) h)

theorem Game.types_prefix {m n : ℕ} (h : m ≤ n) : g.types m <+: g.types n := by
  induction n, h using Nat.le_induction with
  | base => exact List.prefix_rfl
  | succ n _ ih =>
      rw [Game.types_succ]
      exact ih.trans (List.prefix_append _ _)

/-- A message of a round has the round's type. -/
theorem Game.parentType_of_round {cGen k : ℕ} (hc : cGen ≤ g.numberOfGenerations)
    (hk : k < g.numberOfThreads) :
    parentType g (cGen * g.numberOfThreads + k) = g.roundType cGen := by
  refine if_congr ⟨fun h => ?_, fun h => ?_⟩ rfl rfl
  · by_contra hge
    obtain rfl : cGen = g.numberOfGenerations := by omega
    omega
  · have hmul := Nat.mul_le_mul_right g.numberOfThreads (Nat.succ_le_of_lt h)
    rw [Nat.succ_mul] at hmul
    omega

/-- All complete rounds were rounds of GENDONE messages. -/
theorem Game.types_of_round {cGen k : ℕ} (hc : cGen ≤ g.numberOfGenerations)
    (hk : k ≤ g.numberOfThreads) :
    g.types (cGen * g.numberOfThreads + k) =
      List.replicate (cGen * g.numberOfThreads) .genDone ++
        List.replicate k (g.roundType cGen) := by
  induction k with
  | zero =>
      rw [Nat.add_zero, List.replicate_zero, List.append_nil]
      exact Game.types_of_le (Nat.mul_le_mul_right _ hc)
  | succ k ih =>
      rw [← Nat.add_assoc, Game.types_succ, ih (by omega),
        Game.parentType_of_round hc (by omega), List.append_assoc, List.replicate_succ']

end Types

section Steps

variable {s s' : View} {i : ℕ}

/-- `main` takes out the message it expects, or takes none out and stays in its
round. -/
theorem Inv.mainTakes (h : Inv g s) (hm : MainMove g s s') :
    (∃ k m, mainCode g s.main = .recv 0 k ∧ s.box 0 = some m ∧
        m.type = parentType g (s.main.collected g) ∧
        s'.main.collected g = s.main.collected g + 1) ∨
      (∀ k, mainCode g s.main ≠ .recv 0 k) ∧
        s'.main.collected g = s.main.collected g := by
  have hok := h.flow.mainOk
  cases hm with
  | send b m l hi hb => exact .inr ⟨by simp [hi], (mainSend_of_code hok hi).collected⟩
  | recv b l m hi hb =>
      obtain ⟨rfl, hc⟩ := mainRecv_of_code hok hi
      have htype := h.flow.type m hb
      exact .inl ⟨l, m, hi, hb, htype, (hc m htype).collected⟩
  | access f hi =>
      exact .inr ⟨by simp [hi], (mainQuiet_of_access hok hi s.mem).1.collected⟩
  | create u l hi => exact .inr ⟨by simp [hi], (mainQuiet_of_create hok hi).1.collected⟩
  | join u l hi hu => exact .inr ⟨by simp [hi], (mainQuiet_of_join hok hi).1.collected⟩
  | exit hi => exact .inr ⟨by simp [hi], rfl⟩

/-- A worker takes nothing out of mailbox 0. -/
theorem linesthread_ne_recv_zero (hi : 1 ≤ i) (l : WorkerLoc) (k : Msg → WorkerLoc) :
    linesthread g i l ≠ .recv 0 k := by
  intro hcode
  cases l <;> simp only [linesthread] at hcode
  all_goals
    repeat' split at hcode
    all_goals first
      | contradiction
      | (obtain ⟨hzero, -⟩ := Instr.recv.inj hcode; omega)

end Steps

/-- The types of the messages that `main` has taken out. -/
theorem types_received {blank : Msg} {s : State g.program}
    (hs : Transition.Reachable next (g.start blank) s) :
    (received s 0).map Msg.type = g.types ((view (abstract s)).main.collected g) := by
  have hexcl := exclusive_start g blank
  refine received_invariant
    (I := fun a log => log.map Msg.type = g.types ((view a).main.collected g)) hexcl hs ?_ ?_
  · rw [view_start]
    have hnone : received (g.start blank) 0 = [] := received_initial 0
    rw [hnone]
    simp [View.start, MainLoc.collected, MainLoc.rounds, MainLoc.extra, Game.types]
  · intro t a a' log hreach hlog hnext
    have hinv := inv_of_reachable hreach
    obtain ⟨-, hrun, hmove⟩ := move_of_step hnext
    rw [List.map_append, hlog]
    cases t with
    | main =>
        rcases hinv.mainTakes hmove with ⟨k, m, hi, hb, htype, hcoll⟩ | ⟨hi, hcoll⟩
        · rw [takes_of_recv (P := g.program) (t := .main) (a := a) hi hb, hcoll,
            Game.types_succ, ← htype]
          rfl
        · rw [takes_of_not_recv (P := g.program) (t := .main) (a := a) hi, hcoll]
          exact List.append_nil _
    | worker i =>
        have hi := (Game.mem_workers.mp (hinv.lives.mem_workers hinv.flow.mainOk hrun)).1
        rw [takes_of_not_recv (P := g.program) (t := .worker i) (a := a)
          (linesthread_ne_recv_zero hi _), main_of_workerMove hmove]
        exact List.append_nil _

section Concrete

variable {blank : Msg} {s : State g.program}

/-- Only `main` receives from mailbox 0. -/
theorem main_of_recv_zero (hs : Transition.Reachable next (g.start blank) s) {t : ThreadId}
    (hrun : s.status t = .running) {k : Msg → Loc t}
    (hc : g.program.code t (s.loc t) = .recv 0 k) : t = .main := by
  have hexcl := exclusive_start g blank
  have hinv := inv_of_reachable (abstract_reachable hexcl hs)
  cases t with
  | main => rfl
  | worker i =>
      have hi := (Game.mem_workers.mp (hinv.lives.mem_workers hinv.flow.mainOk hrun)).1
      exact absurd hc (linesthread_ne_recv_zero hi _ _)

/-- While `main` is inside a mailbox it stays where it is and completes no
receive. -/
theorem stays_of_phase (hs : Transition.Reachable next (g.start blank) s)
    {s' : State g.program} {t : ThreadId} (h : next t s = some s')
    (hp : s'.phase .main ≠ .entry) :
    s'.loc .main = s.loc .main ∧ s'.returned 0 = s.returned 0 := by
  have hexcl : Exclusive s := (exclusive_start g blank).of_reachable hs
  obtain ⟨⟨-, hrun⟩, hm⟩ := next_eq_some_iff.mp h
  refine ⟨hm.loc_eq_of_phase hexcl hp, ?_⟩
  cases hm with
  | recvPost b l m hi hp' =>
      refine Function.update_of_ne ?_ _ _
      rintro rfl
      obtain rfl := main_of_recv_zero hs hrun hi
      simp at hp
  | _ => rfl

/-- Outside the mailboxes the control point of `main` is that of the atomic
machine, and the messages taken out have been returned. -/
theorem received_of_entry (hs : Transition.Reachable next (g.start blank) s)
    (hp : s.phase .main = .entry) :
    (view (abstract s)).main = s.loc .main ∧ received s 0 = s.returned 0 := by
  have hexcl : Exclusive s := (exclusive_start g blank).of_reachable hs
  refine ⟨abstractLoc_of_entry hp, received_eq_returned fun t k hc => ?_⟩
  by_contra hpt
  obtain rfl := main_of_recv_zero hs (hexcl.inside t hpt).1 hc
  exact hpt hp

/-- Where `main` is in its rounds, and the types of what it has received. -/
theorem returned_types (hs : Transition.Reachable next (g.start blank) s)
    {cGen allDoneCounter i : ℕ} (hloc : s.loc .main = MainLoc.collect cGen allDoneCounter i) :
    MainOk g (.collect cGen allDoneCounter i) ∧
      (s.returned 0).map Msg.type = g.types (cGen * g.numberOfThreads + (i - 1)) := by
  have hexcl := exclusive_start g blank
  refine hs.invariant (I := fun s => s.loc .main = MainLoc.collect cGen allDoneCounter i →
    MainOk g (.collect cGen allDoneCounter i) ∧
      (s.returned 0).map Msg.type = g.types (cGen * g.numberOfThreads + (i - 1))) ?_ ?_ hloc
  · intro hloc
    contradiction
  · intro t a a' hreach hI hnext hloc
    have hreach' := hreach.tail ⟨t, hnext⟩
    by_cases hp : a'.phase .main = .entry
    · obtain ⟨hmain, hreceived⟩ := received_of_entry hreach' hp
      have hok := (inv_of_reachable (abstract_reachable hexcl hreach')).flow.mainOk
      have htypes := types_received hreach'
      rw [hmain, hloc] at hok htypes
      rw [hreceived] at htypes
      exact ⟨hok, htypes⟩
    · obtain ⟨hsame, hreturned⟩ := stays_of_phase hreach hnext hp
      rw [hreturned]
      exact hI (hsame ▸ hloc)

/-- The messages in mailbox 0, taken out or not, have been deposited with the
types of the rounds. -/
theorem types_deposited (hs : Transition.Reachable next (g.start blank) s) :
    g.types (total g WorkerLoc.sent (view (abstract s)).worker) <+:
      (s.deposited 0).map Msg.type := by
  have hexcl := exclusive_start g blank
  have hflow := (inv_of_reachable (abstract_reachable hexcl hs)).flow
  have hpre := (received_append_box_isPrefix (hexcl.of_reachable hs) 0).map Msg.type
  rw [List.map_append, types_received hs] at hpre
  have hbox : (view (abstract s)).box 0 = (abstract s).box 0 := rfl
  rw [hflow.parent, hbox]
  cases hm : (abstract s).box 0 with
  | none => simpa [hm] using hpre
  | some m =>
      have htype := hflow.type m hm
      rw [hm] at hpre
      rw [full_some, Game.types_succ, ← htype]
      exact hpre

/-- A receive leads to a control point before the barrier. -/
theorem counted_of_recv {i b : ℕ} {l : WorkerLoc} {k : Msg → WorkerLoc}
    (h : linesthread g i l = .recv b k) (m : Msg) : (k m).counted = 0 := by
  cases l <;> simp only [linesthread] at h
  all_goals
    repeat' split at h
    all_goals first | contradiction | obtain ⟨-, rfl⟩ := Instr.recv.inj h
  · dsimp only
    split
    · rfl
    · exact forGen_counted _
  · dsimp only
    repeat' split
    all_goals rfl

/-- A worker past its increment of `barrierCount` is not inside a receive. -/
theorem worker_of_counted {i : ℕ} (h : ((view (abstract s)).worker i).counted = 1) :
    (view (abstract s)).worker i = s.loc (.worker i) := by
  rcases abstractLoc_cases s (.worker i) with heq | ⟨b, k, m, hc, hm⟩
  · exact heq
  · change WorkerLoc.counted (abstractLoc s (.worker i)) = 1 at h
    rw [hm, counted_of_recv hc m] at h
    contradiction

end Concrete

section Barrier

/-- The control points past the comparison of `barrierCount` and its posts. -/
def WorkerLoc.Compared : WorkerLoc → Prop
  | .waitAll _ => True
  | .sendAllDone _ => True
  | .returned _ => True
  | _ => False

/-- A worker has passed its wait on `alldone_sem` only when every worker has sent
its last GENDONE and all of them have been deposited. -/
def NoEarlyPass (s : State g.program) : Prop :=
  ∀ i ∈ g.workers, WorkerLoc.passed (s.loc (.worker i)) = 1 →
    (∀ j ∈ g.workers, g.numberOfGenerations ≤ WorkerLoc.sent (s.loc (.worker j))) ∧
      List.replicate (g.numberOfGenerations * g.numberOfThreads) .genDone <+:
        (s.deposited 0).map Msg.type

/-- All messages that `main` has received in a round are of the round's type, and
the complete rounds before it brought one GENDONE from each worker. -/
def RoundsOfOneType (s : State g.program) : Prop :=
  ∀ cGen allDoneCounter i, s.loc .main = MainLoc.collect cGen allDoneCounter i →
    cGen ≤ g.numberOfGenerations ∧
      (s.returned 0).map Msg.type = List.replicate (cGen * g.numberOfThreads) .genDone ++
        List.replicate (i - 1) (g.roundType cGen)

/-- Both tests of `allDoneCounter == numberOfThreads` find it zero or full. -/
def TestsDecided (s : State g.program) : Prop :=
  (∀ cGen allDoneCounter i, s.loc .main = MainLoc.collect cGen allDoneCounter i →
      g.numberOfThreads < i → allDoneCounter = 0 ∨ allDoneCounter = g.numberOfThreads) ∧
    ∀ cGen allDoneCounter i j, s.loc .main = MainLoc.updateMatrix cGen allDoneCounter i j →
      allDoneCounter = 0

/-- Once all workers have compared, there is a post for each that still waits. -/
def NoLostWakeUp (s : State g.program) : Prop :=
  (∀ i ∈ g.workers, WorkerLoc.Compared (s.loc (.worker i))) →
    (g.workers.filter fun i => WorkerLoc.passed (s.loc (.worker i)) = 0).card ≤
      s.sem .allDoneSem

variable {blank : Msg} {s : State g.program}

/-- A control point that is no receive is read as it is. -/
theorem view_worker {i : ℕ} (h : ∀ b k, linesthread g i (s.loc (.worker i)) ≠ .recv b k) :
    (view (abstract s)).worker i = s.loc (.worker i) :=
  abstractLoc_of_not_recv (P := g.program) h

theorem noEarlyPass_of_reachable (hs : Transition.Reachable next (g.start blank) s) :
    NoEarlyPass s := by
  intro i hi hpassed
  have hexcl := exclusive_start g blank
  have hinv := inv_of_reachable (abstract_reachable hexcl hs)
  have hview : (view (abstract s)).worker i = s.loc (.worker i) := by
    apply view_worker
    intro b k hc
    cases hl : s.loc (.worker i) <;> rw [hl] at hc hpassed <;>
      simp [linesthread, WorkerLoc.passed] at hc hpassed
  have hpos : 0 < (view (abstract s)).posts g +
      total g WorkerLoc.posting (view (abstract s)).worker := by
    have hle := le_total (f := WorkerLoc.passed) (W := (view (abstract s)).worker) hi
    rw [hview, hpassed] at hle
    simp only [View.posts]
    omega
  have hall := hinv.barrier.pass hpos
  have hsent : ∀ j ∈ g.workers,
      g.numberOfGenerations ≤ ((view (abstract s)).worker j).sent := fun j hj =>
    hinv.flow.sent_of_all_counted hinv.barrier hall hj
  refine ⟨fun j hj => ?_, ?_⟩
  · rw [← worker_of_counted (hinv.barrier.all_counted hall hj)]
    exact hsent j hj
  · have hge := le_total_of_forall hsent
    rw [Nat.mul_comm] at hge
    rw [← Game.types_of_le (le_refl _)]
    exact (Game.types_prefix hge).trans (types_deposited hs)

theorem roundsOfOneType_of_reachable (hs : Transition.Reachable next (g.start blank) s) :
    RoundsOfOneType s := by
  intro cGen allDoneCounter i hloc
  obtain ⟨⟨hc, hi, hi', -⟩, htypes⟩ := returned_types hs hloc
  exact ⟨hc, htypes.trans (Game.types_of_round hc (by omega))⟩

theorem testsDecided_of_reachable (hs : Transition.Reachable next (g.start blank) s) :
    TestsDecided s := by
  have hexcl := exclusive_start g blank
  refine ⟨fun cGen allDoneCounter i hloc hlt => ?_, fun cGen allDoneCounter i j hloc => ?_⟩
  · obtain ⟨⟨-, -, hi', hcount⟩, -⟩ := returned_types hs hloc
    rw [hcount]
    split <;> omega
  · have hok := (inv_of_reachable (abstract_reachable hexcl hs)).flow.mainOk
    rw [abstract_main hloc (mainCode_ne_recv (by simp))] at hok
    exact hok.2.2

theorem counted_of_compared {l : WorkerLoc} (h : l.Compared) : l.counted = 1 := by
  cases l <;> first | rfl | exact h.elim

/-- The workers that have not passed, and those that have, are all workers. -/
theorem card_not_passed {W : ℕ → WorkerLoc} :
    (g.workers.filter fun i => (W i).passed = 0).card + total g WorkerLoc.passed W =
      g.numberOfThreads := by
  have hone : total g WorkerLoc.passed W =
      (g.workers.filter fun i => ¬ (W i).passed = 0).card := by
    rw [Finset.card_eq_sum_ones, Finset.sum_filter]
    refine Finset.sum_congr rfl fun i _ => ?_
    have hle := (W i).passed_le
    split <;> omega
  rw [hone, Finset.card_filter_add_card_filter_not, g.card_workers]

theorem noLostWakeUp_of_reachable (hs : Transition.Reachable next (g.start blank) s) :
    NoLostWakeUp s := by
  intro hcompared
  have hexcl := exclusive_start g blank
  have hbarrier := (inv_of_reachable (abstract_reachable hexcl hs)).barrier
  have hview : ∀ i ∈ g.workers, (view (abstract s)).worker i = s.loc (.worker i) ∧
      WorkerLoc.Compared ((view (abstract s)).worker i) := by
    intro i hi
    have hcomp := hcompared i hi
    have heq : (view (abstract s)).worker i = s.loc (.worker i) := by
      apply view_worker
      intro b k hc
      cases hl : s.loc (.worker i) <;> rw [hl] at hc hcomp <;>
        simp [linesthread, WorkerLoc.Compared] at hc hcomp
    exact ⟨heq, heq ▸ hcomp⟩
  have hall : (view (abstract s)).mem.barrierCount = g.numberOfThreads := by
    have hcount : total g WorkerLoc.counted (view (abstract s)).worker = ∑ _i ∈ g.workers, 1 :=
      Finset.sum_congr rfl fun i hi => counted_of_compared (hview i hi).2
    rw [hbarrier.count, hcount, Finset.sum_const, g.card_workers, Nat.nsmul_eq_mul, Nat.mul_one]
  have hcard := card_not_passed (g := g) (W := (view (abstract s)).worker)
  have hsame : (g.workers.filter fun i => WorkerLoc.passed (s.loc (.worker i)) = 0) =
      g.workers.filter fun i => ((view (abstract s)).worker i).passed = 0 :=
    Finset.filter_congr fun i hi => by rw [(hview i hi).1]
  rw [hsame]
  rcases hbarrier.release hall with hposts | ⟨i, hi, hrel⟩
  · have hsem : (view (abstract s)).allDoneSem = s.sem .allDoneSem := rfl
    simp only [View.posts, hsem] at hposts
    omega
  · -- a worker that has compared has made all its posts
    have hcomp := (hview i hi).2
    cases hl : (view (abstract s)).worker i <;> rw [hl] at hcomp hrel <;>
      first | exact hcomp.elim | exact hrel.elim

/-- Nobody passes the barrier early, each round of `main` receives messages of
one type, `allDoneCounter` is zero or full at every test, and no wake-up is
lost. -/
theorem barrier_at_end (hs : Transition.Reachable next (g.start blank) s) :
    NoEarlyPass s ∧ RoundsOfOneType s ∧ TestsDecided s ∧ NoLostWakeUp s :=
  ⟨noEarlyPass_of_reachable hs, roundsOfOneType_of_reachable hs, testsDecided_of_reachable hs,
    noLostWakeUp_of_reachable hs⟩

def hookTwo : Game := hook 2 Nat.two_pos

/-- In the barrier the second worker has made its three posts and passed, and the first
still waits. -/
theorem barrier_at_end_hook :
    ∃ s, Transition.run next (hookStart ++ hookRound ++ List.replicate 41 .main ++
          List.replicate 32 (.worker 1) ++ List.replicate 46 (.worker 2) ++
            List.replicate 3 .main ++ List.replicate 12 (.worker 2))
        (hookTwo.start (hookTwo.uninit 0 0)) = some s ∧
      s.sem .allDoneSem = 2 ∧ WorkerLoc.passed (s.loc (.worker 1)) = 0 ∧
      WorkerLoc.passed (s.loc (.worker 2)) = 1 ∧
      NoEarlyPass s ∧ RoundsOfOneType s ∧ TestsDecided s ∧ NoLostWakeUp s := by
  have hrun : (Transition.run next (hookStart ++ hookRound ++ List.replicate 41 .main ++
          List.replicate 32 (.worker 1) ++ List.replicate 46 (.worker 2) ++
            List.replicate 3 .main ++ List.replicate 12 (.worker 2))
      (hookTwo.start (hookTwo.uninit 0 0))).map (fun s => (s.sem .allDoneSem,
        WorkerLoc.passed (s.loc (.worker 1)), WorkerLoc.passed (s.loc (.worker 2)))) =
          some (2, 0, 1) := by decide +kernel
  obtain ⟨s, hs, hreach, hstate⟩ := Transition.exists_of_run_map hrun
  obtain ⟨hsem, hpassed⟩ := Prod.mk.inj hstate
  obtain ⟨hone, htwo⟩ := Prod.mk.inj hpassed
  exact ⟨s, hs, hsem, hone, htwo, barrier_at_end hreach⟩

end Barrier

end Life

end OperatingSystems
