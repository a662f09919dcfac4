import OperatingSystems.Life.Effects

/-!
# The messages, the barrier and the lives of the threads

`Flow` ties the messages a thread has sent to those the others have received:
each mailbox of a worker holds the one message still under way, the next message
for `main` has the type `main` needs, and no worker is behind the rounds that
`main` has collected. `Barrier` says that `barrierCount` counts the workers past
their increment, that nobody passes the barrier before all have been counted,
and that somebody is left to release it until enough posts have been made.
`Lives` says which threads have been created and have ended. The three hold in
every reachable state.
-/

namespace OperatingSystems

namespace Life

open OperatingSystems.Thread OperatingSystems.Mailbox

variable {g : Game}

/-- The `threadID`s of the workers. -/
def Game.workers (g : Game) : Finset ℕ := Finset.Icc 1 g.numberOfThreads

theorem Game.mem_workers {i : ℕ} : i ∈ g.workers ↔ 1 ≤ i ∧ i ≤ g.numberOfThreads :=
  Finset.mem_Icc

theorem Game.card_workers (g : Game) : g.workers.card = g.numberOfThreads := by
  simp [Game.workers]

section Total

variable {f : WorkerLoc → ℕ} {W : ℕ → WorkerLoc} {i : ℕ} {l : WorkerLoc} {n : ℕ}

/-- The sum of a count over all workers. -/
def total (g : Game) (f : WorkerLoc → ℕ) (W : ℕ → WorkerLoc) : ℕ :=
  ∑ i ∈ g.workers, f (W i)

theorem total_update (hi : i ∈ g.workers) :
    total g f (Function.update W i l) + f (W i) = total g f W + f l := by
  unfold total
  rw [← Finset.add_sum_erase _ _ hi, ← Finset.add_sum_erase _ (fun j => f (W j)) hi]
  have hrest : ∑ j ∈ g.workers.erase i, f (Function.update W i l j) =
      ∑ j ∈ g.workers.erase i, f (W j) := by
    refine Finset.sum_congr rfl fun j hj => ?_
    rw [Function.update_of_ne (Finset.ne_of_mem_erase hj)]
  rw [hrest, Function.update_self]
  ring

theorem total_update_of_eq (hi : i ∈ g.workers) (h : f l = f (W i)) :
    total g f (Function.update W i l) = total g f W := by
  have hupd := total_update (f := f) (W := W) (l := l) hi
  omega

theorem le_total (hi : i ∈ g.workers) : f (W i) ≤ total g f W :=
  Finset.single_le_sum (f := fun j => f (W j)) (fun _ _ => Nat.zero_le _) hi

theorem total_le (h : ∀ i ∈ g.workers, f (W i) ≤ n) : total g f W ≤ g.numberOfThreads * n := by
  have hle := Finset.sum_le_card_nsmul g.workers (fun j => f (W j)) n h
  rwa [g.card_workers, Nat.nsmul_eq_mul] at hle

theorem le_total_of_forall (h : ∀ i ∈ g.workers, n ≤ f (W i)) :
    g.numberOfThreads * n ≤ total g f W := by
  have hle := Finset.card_nsmul_le_sum g.workers (fun j => f (W j)) n h
  rwa [g.card_workers, Nat.nsmul_eq_mul] at hle

/-- One worker below a common upper bound keeps the sum below. -/
theorem total_lt (h : ∀ i ∈ g.workers, f (W i) ≤ n) (hi : i ∈ g.workers) (hlt : f (W i) < n) :
    total g f W < g.numberOfThreads * n := by
  have hsum : ∑ j ∈ g.workers, f (W j) < ∑ _j ∈ g.workers, n :=
    Finset.sum_lt_sum h ⟨i, hi, hlt⟩
  rwa [Finset.sum_const, g.card_workers, Nat.nsmul_eq_mul] at hsum

end Total

/-- The number of messages in a mailbox. -/
def full : Option Msg → ℕ
  | none => 0
  | some _ => 1

@[simp] theorem full_none : full none = 0 := rfl

@[simp] theorem full_some (m : Msg) : full (some m) = 1 := rfl

/-- The messages from `main` to worker `i`, which is at `w` with `o` in its
mailbox. -/
structure Channel (g : Game) (l : MainLoc) (i : ℕ) (w : WorkerLoc) (o : Option Msg) : Prop where
  count : w.recvd + full o = l.sentTo i
  go : w.goRecvd ≤ l.goSentTo i
  content : ∀ m, o = some m → Expected g i (l.goSentTo i) w m
  halted : w.halted = 1 → l.sentTo i = l.goSentTo i + 2

/-- The type of the message that `main` takes out of mailbox 0 after `n` others. -/
def parentType (g : Game) (n : ℕ) : MsgType :=
  if n < g.numberOfGenerations * g.numberOfThreads then .genDone else .allDone

/-- The messages between `main` and the workers. -/
structure Flow (g : Game) (s : View) : Prop where
  mainOk : MainOk g s.main
  workerOk : ∀ i ∈ g.workers, WorkerOk g i (s.worker i)
  channel : ∀ i ∈ g.workers, Channel g s.main i (s.worker i) (s.box i)
  parent : total g WorkerLoc.sent s.worker = s.main.collected g + full (s.box 0)
  type : ∀ m, s.box 0 = some m → m.type = parentType g (s.main.collected g)
  floor : ∀ i ∈ g.workers, s.main.rounds ≤ (s.worker i).sent

/-- The posts of `alldone_sem`, waited for or not. -/
def View.posts (g : Game) (s : View) : ℕ :=
  s.allDoneSem + total g WorkerLoc.passed s.worker

/-- The barrier of the workers. -/
structure Barrier (g : Game) (s : View) : Prop where
  count : s.mem.barrierCount = total g WorkerLoc.counted s.worker
  critical : s.genDoneSem + total g WorkerLoc.critical s.worker = 1
  pass : 0 < s.posts g + total g WorkerLoc.posting s.worker →
    s.mem.barrierCount = g.numberOfThreads
  release : s.mem.barrierCount = g.numberOfThreads →
    g.numberOfThreads < s.posts g ∨ ∃ i ∈ g.workers, (s.worker i).Releasing (s.posts g)

/-- Which threads have been created and which have ended. -/
structure Lives (g : Game) (s : View) : Prop where
  aborted : s.aborted = false
  created : ∀ i, s.status (.worker i) ≠ .new ↔ 1 ≤ i ∧ i < s.main.nextCreate g
  ended : ∀ i, s.status (.worker i) = .exited →
    (s.worker i).ended = 1 ∨ (s.worker i).halted = 1
  joined : ∀ i, 1 ≤ i → i < s.main.nextJoin g → s.status (.worker i) = .exited
  main : s.status .main = .running ∨
    s.status .main = .exited ∧ ∃ cGen al, s.main = .finished cGen al

/-- What holds of every reachable state. -/
structure Inv (g : Game) (s : View) : Prop where
  flow : Flow g s
  barrier : Barrier g s
  lives : Lives g s

section Facts

variable {i : ℕ} {l : WorkerLoc}

theorem WorkerLoc.counted_le (l : WorkerLoc) : l.counted ≤ 1 := by
  cases l <;> simp [WorkerLoc.counted]

theorem WorkerLoc.counted_of_passed {l : WorkerLoc} (h : l.passed = 1) : l.counted = 1 := by
  cases l <;> simp_all [WorkerLoc.passed, WorkerLoc.counted]

theorem WorkerLoc.passed_of_ended {l : WorkerLoc} (h : l.ended ≠ 0) : l.passed = 1 := by
  cases l <;> simp_all [WorkerLoc.passed, WorkerLoc.ended]

theorem WorkerLoc.ended_le (l : WorkerLoc) : l.ended ≤ 1 := by
  cases l <;> simp [WorkerLoc.ended]

theorem WorkerLoc.passed_le (l : WorkerLoc) : l.passed ≤ 1 := by
  cases l <;> simp [WorkerLoc.passed]

theorem WorkerLoc.inBarrier_of_counted {l : WorkerLoc} (h : l.counted = 1) :
    l.inBarrier = 1 := by
  cases l <;> simp_all [WorkerLoc.inBarrier, WorkerLoc.counted]

theorem WorkerLoc.inBarrier_le (l : WorkerLoc) : l.inBarrier ≤ 1 := by
  cases l <;> simp [WorkerLoc.inBarrier, WorkerLoc.counted]

theorem WorkerLoc.computing_le (l : WorkerLoc) : l.computing ≤ 1 := by
  cases l <;> simp [WorkerLoc.computing]

theorem WorkerOk.one_le_gen {i : ℕ} {l : WorkerLoc} (h : WorkerOk g i l) : 1 ≤ l.gen := by
  cases hv : l.vars? with
  | none => simp [WorkerLoc.gen, hv]
  | some v =>
      simp only [WorkerLoc.gen, hv]
      exact (h.varsOk hv).one_le

theorem WorkerLoc.inBarrier_of_computing {l : WorkerLoc} (h : l.computing = 1) :
    l.inBarrier = 0 := by
  cases l <;> simp_all [WorkerLoc.inBarrier, WorkerLoc.computing, WorkerLoc.counted]

/-- No worker has received more GO messages than there are generations. -/
theorem WorkerOk.goRecvd_le {i : ℕ} {l : WorkerLoc} (h : WorkerOk g i l) :
    l.goRecvd ≤ g.numberOfGenerations := by
  have hle := l.inBarrier_le
  have hcomp := l.computing_le
  have hone := h.one_le_gen
  simp only [WorkerLoc.goRecvd]
  by_cases hin : l.inBarrier = 0
  · have hgen := h.inLoop hin
    omega
  · have hgen := h.pastLoop (by omega)
    have hzero : l.computing ≠ 1 := fun hc => hin (WorkerLoc.inBarrier_of_computing hc)
    omega

theorem WorkerLoc.Releasing.mono {A A' : ℕ} {l : WorkerLoc} (h : l.Releasing A) (hA : A ≤ A') :
    l.Releasing A' := by
  cases l with
  | postAll v k => exact le_trans h hA
  | unlockCount v => trivial
  | testCount v => trivial
  | _ => exact h.elim

end Facts

section Barrier

variable {s s' : View} {i : ℕ}

/-- Once all workers are counted, each is past its generation loop. -/
theorem Barrier.all_counted (h : Barrier g s) (hall : s.mem.barrierCount = g.numberOfThreads)
    (hi : i ∈ g.workers) : (s.worker i).counted = 1 := by
  by_contra hne
  have hle := (s.worker i).counted_le
  have hlt : total g WorkerLoc.counted s.worker < g.numberOfThreads * 1 :=
    total_lt (fun j _ => (s.worker j).counted_le) hi (by omega)
  rw [← h.count] at hlt
  omega

/-- A worker that computes keeps everybody before the barrier. -/
theorem Barrier.not_passed (h : Barrier g s) (hi : i ∈ g.workers)
    (hcount : (s.worker i).counted = 0) :
    s.posts g = 0 ∧ total g WorkerLoc.posting s.worker = 0 := by
  by_contra hne
  have hpos : 0 < s.posts g + total g WorkerLoc.posting s.worker := by omega
  have hone := h.all_counted (h.pass hpos) hi
  omega

/-- Every worker that has been counted has sent its last GENDONE. -/
theorem Flow.sent_of_all_counted (hf : Flow g s) (hb : Barrier g s)
    (hall : s.mem.barrierCount = g.numberOfThreads) (hi : i ∈ g.workers) :
    g.numberOfGenerations ≤ (s.worker i).sent := by
  have hin := WorkerLoc.inBarrier_of_counted (hb.all_counted hall hi)
  have hgen := (hf.workerOk i hi).pastLoop hin
  simp only [WorkerLoc.sent, hgen]
  omega

/-- While nobody has passed the barrier, no worker has sent more than its
GENDONE messages. -/
theorem Flow.sent_le (hf : Flow g s) (hi : i ∈ g.workers)
    (hend : (s.worker i).ended = 0) : (s.worker i).sent ≤ g.numberOfGenerations := by
  have hok := hf.workerOk i hi
  have hle := (s.worker i).inBarrier_le
  simp only [WorkerLoc.sent, hend]
  by_cases hin : (s.worker i).inBarrier = 0
  · have := hok.inLoop hin
    omega
  · have := hok.pastLoop (by omega)
    omega

/-- What a worker sends is what `main` needs next. -/
theorem Flow.type_of_send (hf : Flow g s) (hb : Barrier g s) (hi : i ∈ g.workers) {m : Msg}
    (hempty : s.box 0 = none)
    (hkind : m.type = .genDone ∧ (s.worker i).computing = 1 ∨
      m.type = .allDone ∧ (s.worker i).passed = 1) :
    m.type = parentType g (s.main.collected g) := by
  have hparent := hf.parent
  rw [hempty, full_none, Nat.add_zero] at hparent
  unfold parentType
  rw [← hparent]
  rcases hkind with ⟨htype, hcomp⟩ | ⟨htype, hpass⟩
  · have hloop := WorkerLoc.inBarrier_of_computing hcomp
    have hcount : (s.worker i).counted = 0 := by
      by_contra hne
      have hle := (s.worker i).counted_le
      have := WorkerLoc.inBarrier_of_counted (show (s.worker i).counted = 1 by omega)
      omega
    obtain ⟨hposts, -⟩ := hb.not_passed hi hcount
    have hended : ∀ j ∈ g.workers, (s.worker j).ended = 0 := by
      intro j hj
      by_contra hne
      have hle := le_total (f := WorkerLoc.passed) (W := s.worker) hj
      rw [WorkerLoc.passed_of_ended hne] at hle
      simp only [View.posts] at hposts
      omega
    have hlt : total g WorkerLoc.sent s.worker < g.numberOfThreads * g.numberOfGenerations := by
      refine total_lt (fun j hj => hf.sent_le hj (hended j hj)) hi ?_
      have hgen := (hf.workerOk i hi).inLoop hloop
      have hG := g.one_le_generations
      simp only [WorkerLoc.sent, hended i hi]
      omega
    rw [if_pos (by rw [Nat.mul_comm]; exact hlt), htype]
  · have hpos : 0 < s.posts g + total g WorkerLoc.posting s.worker := by
      have hle := le_total (f := WorkerLoc.passed) (W := s.worker) hi
      simp only [View.posts]
      omega
    have hge : g.numberOfThreads * g.numberOfGenerations ≤ total g WorkerLoc.sent s.worker :=
      le_total_of_forall fun j hj => Flow.sent_of_all_counted hf hb (hb.pass hpos) hj
    rw [if_neg (by rw [Nat.mul_comm]; omega), htype]

end Barrier

section FlowStep

variable {s : View} {i b : ℕ} {m : Msg}

theorem Channel.congr {l l' : MainLoc} {w : WorkerLoc} {o : Option Msg}
    (h : Channel g l i w o) (hsent : l'.sentTo i = l.sentTo i)
    (hgo : l'.goSentTo i = l.goSentTo i) : Channel g l' i w o :=
  ⟨hsent ▸ h.count, hgo ▸ h.go, hgo ▸ h.content, by rw [hsent, hgo]; exact h.halted⟩

theorem Channel.quiet {l : MainLoc} {w w' : WorkerLoc} {o : Option Msg}
    (h : Channel g l i w o) (hq : WorkerQuiet g i w w') : Channel g l i w' o := by
  refine ⟨hq.recvd ▸ h.count, hq.goRecvd ▸ h.go, fun m hm => ?_, hq.halted ▸ h.halted⟩
  have hexp := h.content m hm
  unfold Expected at hexp ⊢
  rwa [hq.recvd]

/-- `main` sends a message. -/
theorem Flow.mainSend (h : Flow g s) {l : MainLoc} (hc : MainSend g s.main l b m)
    (hempty : s.box b = none) :
    Flow g { s with main := l, box := Function.update s.box b (some m) } := by
  have hb0 : (0 : ℕ) ≠ b := by
    have := hc.one_le
    omega
  refine ⟨hc.ok, h.workerOk, fun i hi => ?_, ?_, ?_, ?_⟩
  · have hch := h.channel i hi
    obtain ⟨hi1, hiT⟩ := Game.mem_workers.mp hi
    have hsent := hc.sentTo i hi1 hiT
    have hgo := hc.goSentTo i hi1 hiT
    by_cases hib : i = b
    · subst hib
      have hcount := hch.count
      rw [hempty, full_none, Nat.add_zero] at hcount
      simp only [if_true, true_and] at hsent hgo
      refine ⟨?_, ?_, ?_, ?_⟩
      · simp only [Function.update_self, full_some]
        omega
      · exact le_trans hch.go (hgo ▸ Nat.le_add_right _ _)
      · intro m' hm'
        obtain rfl : m = m' := by simpa using hm'
        refine ⟨fun hzero => hc.first (hcount ▸ hzero), fun hpos => ?_⟩
        have hlater := hc.later (hcount ▸ hpos)
        change m.type = if (s.worker i).recvd ≤ l.goSentTo i then .go else .stop
        rcases hc.kind (hcount ▸ hpos) with hkind | hkind
        · rw [if_pos hkind] at hgo
          rw [hkind, if_pos (by omega)]
        · rw [if_neg (by simp [hkind])] at hgo
          rw [hkind, if_neg (by omega)]
      · intro hhalt
        have hfull := hch.halted hhalt
        have hlater := hc.later (by omega)
        omega
    · rw [if_neg hib, Nat.add_zero] at hsent
      rw [if_neg (fun hand => hib hand.1), Nat.add_zero] at hgo
      simp only [Function.update_of_ne hib]
      exact hch.congr hsent hgo
  · simp only [Function.update_of_ne hb0, hc.collected]
    exact h.parent
  · intro m' hm'
    rw [hc.collected]
    exact h.type m' (by simpa [Function.update_of_ne hb0] using hm')
  · intro i hi
    rw [hc.rounds]
    exact h.floor i hi

/-- `main` takes a message out of mailbox 0. -/
theorem Flow.mainRecv (h : Flow g s) {l : MainLoc} (hc : MainRecv g s.main l)
    (hm : s.box 0 = some m) :
    Flow g { s with main := l, box := Function.update s.box 0 none } := by
  refine ⟨hc.ok, h.workerOk, fun i hi => ?_, ?_, ?_, ?_⟩
  · obtain ⟨hi1, -⟩ := Game.mem_workers.mp hi
    have hi0 : i ≠ 0 := by omega
    simp only [Function.update_of_ne hi0]
    exact (h.channel i hi).congr (hc.sentTo i) (hc.goSentTo i)
  · have hparent := h.parent
    rw [hm, full_some] at hparent
    simp only [Function.update_self, full_none, hc.collected]
    omega
  · intro m' hm'
    simp at hm'
  · intro i hi
    rw [hc.rounds]
    exact h.floor i hi

/-- `main` goes on to the next round: all workers have sent their message. -/
theorem Flow.floor_of_quiet (h : Flow g s) (hb : Barrier g s) {l : MainLoc}
    (hc : MainQuiet g s.main l) (hi : i ∈ g.workers) : l.rounds ≤ (s.worker i).sent := by
  rcases hc.rounds with hsame | ⟨-, hle, hcoll, hgo⟩
  · exact hsame ▸ h.floor i hi
  · by_cases hall : s.mem.barrierCount = g.numberOfThreads
    · exact le_trans hle (h.sent_of_all_counted hb hall hi)
    · -- nobody is past the barrier, so nobody has sent more than it has been asked for
      have hnone : s.posts g = 0 := by
        by_contra hne
        exact hall (hb.pass (by omega))
      have hsent : ∀ j ∈ g.workers, (s.worker j).sent ≤ l.rounds := by
        intro j hj
        obtain ⟨hj1, hjT⟩ := Game.mem_workers.mp hj
        have hle := le_total (f := WorkerLoc.passed) (W := s.worker) hj
        have hended : (s.worker j).ended = 0 := by
          by_contra hne
          rw [WorkerLoc.passed_of_ended hne] at hle
          simp only [View.posts] at hnone
          omega
        have hrecvd := (h.channel j hj).go
        rw [hgo j hj1 hjT] at hrecvd
        simp only [WorkerLoc.sent, WorkerLoc.goRecvd, hended] at hrecvd ⊢
        omega
      by_contra hlt
      have hsum := total_lt hsent hi (by omega)
      rw [h.parent, hcoll, Nat.mul_comm] at hsum
      omega

/-- `main` neither sends nor receives. -/
theorem Flow.mainQuiet (h : Flow g s) (hb : Barrier g s) {l : MainLoc}
    (hc : MainQuiet g s.main l) {s' : View} (hmain : s'.main = l) (hworker : s'.worker = s.worker)
    (hbox : s'.box = s.box) : Flow g s' := by
  subst hmain
  refine ⟨hc.ok, hworker ▸ h.workerOk, fun i hi => ?_, ?_, ?_, ?_⟩
  · obtain ⟨hi1, hiT⟩ := Game.mem_workers.mp hi
    rw [hworker, hbox]
    exact (h.channel i hi).congr (hc.sentTo i hi1 hiT) (hc.goSentTo i hi1 hiT)
  · rw [hworker, hbox, hc.collected]
    exact h.parent
  · rw [hbox, hc.collected]
    exact h.type
  · intro i hi
    rw [hworker]
    exact h.floor_of_quiet hb hc hi

/-- A worker sends a message to `main`. -/
theorem Flow.workerSend (h : Flow g s) (hb : Barrier g s) (hi : i ∈ g.workers) {l : WorkerLoc}
    (hc : WorkerSend g i (s.worker i) l m) (hempty : s.box 0 = none) :
    Flow g { s with
      worker := Function.update s.worker i l
      box := Function.update s.box 0 (some m) } := by
  refine ⟨h.mainOk, fun j hj => ?_, fun j hj => ?_, ?_, ?_, fun j hj => ?_⟩
  · by_cases hji : j = i
    · subst hji
      simpa using hc.ok
    · simpa [hji] using h.workerOk j hj
  · obtain ⟨hj1, -⟩ := Game.mem_workers.mp hj
    have hj0 : j ≠ 0 := by omega
    have hch := h.channel j hj
    by_cases hji : j = i
    · subst hji
      simp only [Function.update_self, Function.update_of_ne hj0]
      refine ⟨hc.recvd ▸ hch.count, hc.goRecvd ▸ hch.go, fun m' hm' => ?_, hc.halted ▸ hch.halted⟩
      have hexp := hch.content m' hm'
      unfold Expected at hexp ⊢
      rwa [hc.recvd]
    · simpa [hji, hj0] using hch
  · have hupd := total_update (f := WorkerLoc.sent) (W := s.worker) (l := l) hi
    have hparent := h.parent
    have hsent := hc.sent
    rw [hempty, full_none] at hparent
    simp only [Function.update_self, full_some]
    omega
  · intro m' hm'
    obtain rfl : m = m' := by simpa using hm'
    exact h.type_of_send hb hi hempty hc.kind
  · have hfloor := h.floor j hj
    by_cases hji : j = i
    · subst hji
      have hsent := hc.sent
      simp only [Function.update_self]
      omega
    · simpa [hji] using hfloor

/-- A worker takes a message out of its mailbox. -/
theorem Flow.workerRecv (h : Flow g s) (hi : i ∈ g.workers) {l : WorkerLoc}
    (hc : WorkerRecv g i (s.main.goSentTo i) (s.worker i) l) (hm : s.box i = some m) :
    Flow g { s with
      worker := Function.update s.worker i l
      box := Function.update s.box i none } := by
  obtain ⟨hi1, -⟩ := Game.mem_workers.mp hi
  have hi0 : (0 : ℕ) ≠ i := by omega
  refine ⟨h.mainOk, fun j hj => ?_, fun j hj => ?_, ?_, ?_, fun j hj => ?_⟩
  · by_cases hji : j = i
    · subst hji
      simpa using hc.ok
    · simpa [hji] using h.workerOk j hj
  · have hch := h.channel j hj
    by_cases hji : j = i
    · subst hji
      have hcount := hch.count
      rw [hm, full_some] at hcount
      have hrecvd := hc.recvd
      simp only [Function.update_self]
      refine ⟨?_, hc.goRecvd, fun m' hm' => by simp at hm', fun hhalt => ?_⟩
      · rw [full_none]
        omega
      · have := hc.halted hhalt
        omega
    · simpa [hji] using hch
  · rw [total_update_of_eq hi hc.sent]
    simpa [hi0] using h.parent
  · intro m' hm'
    exact h.type m' (by simpa [hi0] using hm')
  · have hfloor := h.floor j hj
    by_cases hji : j = i
    · subst hji
      simpa [hc.sent] using hfloor
    · simpa [hji] using hfloor

/-- A worker neither sends nor receives. -/
theorem Flow.workerQuiet (h : Flow g s) (hi : i ∈ g.workers) {l : WorkerLoc}
    (hc : WorkerQuiet g i (s.worker i) l) {s' : View} (hmain : s'.main = s.main)
    (hworker : s'.worker = Function.update s.worker i l) (hbox : s'.box = s.box) :
    Flow g s' := by
  refine ⟨hmain ▸ h.mainOk, fun j hj => ?_, fun j hj => ?_, ?_, ?_, fun j hj => ?_⟩
  · rw [hworker]
    by_cases hji : j = i
    · subst hji
      simpa using hc.ok
    · simpa [hji] using h.workerOk j hj
  · rw [hworker, hbox, hmain]
    by_cases hji : j = i
    · subst hji
      simpa using (h.channel j hj).quiet hc
    · simpa [hji] using h.channel j hj
  · rw [hworker, hbox, hmain, total_update_of_eq hi hc.sent]
    exact h.parent
  · rw [hbox, hmain]
    exact h.type
  · rw [hworker, hmain]
    by_cases hji : j = i
    · subst hji
      simpa [hc.sent] using h.floor j hj
    · simpa [hji] using h.floor j hj

end FlowStep

end Life

end OperatingSystems
