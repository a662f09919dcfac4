import OperatingSystems.Life.Invariant

/-!
# The invariant holds in every reachable state

Each move of `main` and of a worker keeps `Flow`, `Barrier` and `Lives`. A move
inside the barrier has its own lemma; all others leave the places in the barrier
as they are.
-/

namespace OperatingSystems

namespace Life

open OperatingSystems.Thread OperatingSystems.Mailbox

variable {g : Game}

section BarrierStep

variable {s s' : View} {i : ℕ} {l : WorkerLoc}

theorem Barrier.congr (h : Barrier g s) (hworker : s'.worker = s.worker)
    (hgen : s'.genDoneSem = s.genDoneSem) (hall : s'.allDoneSem = s.allDoneSem)
    (hmem : s'.mem.barrierCount = s.mem.barrierCount) : Barrier g s' := by
  have hposts : s'.posts g = s.posts g := by simp only [View.posts, hall, hworker]
  refine ⟨?_, ?_, ?_, ?_⟩
  · rw [hmem, hworker, h.count]
  · rw [hgen, hworker, h.critical]
  · rw [hposts, hmem, hworker]
    exact h.pass
  · rw [hposts, hmem, hworker]
    exact h.release

/-- Somebody is still left to release the barrier after worker `i` has moved. -/
theorem Barrier.release_of (h : Barrier g s) (hi : i ∈ g.workers)
    (hworker : s'.worker = Function.update s.worker i l) (hposts : s.posts g ≤ s'.posts g)
    (hmem : s'.mem.barrierCount = s.mem.barrierCount)
    (hstay : s.mem.barrierCount = g.numberOfThreads → (s.worker i).Releasing (s.posts g) →
      g.numberOfThreads < s'.posts g ∨ l.Releasing (s'.posts g)) :
    s'.mem.barrierCount = g.numberOfThreads →
      g.numberOfThreads < s'.posts g ∨ ∃ j ∈ g.workers, (s'.worker j).Releasing (s'.posts g) := by
  rw [hmem, hworker]
  intro hall
  rcases h.release hall with hlt | ⟨j, hj, hrel⟩
  · exact .inl (lt_of_lt_of_le hlt hposts)
  · by_cases hji : j = i
    · subst hji
      rcases hstay hall hrel with hlt | hrel'
      · exact .inl hlt
      · exact .inr ⟨j, hj, by simpa using hrel'⟩
    · exact .inr ⟨j, hj, by simpa [hji] using hrel.mono hposts⟩

/-- A worker moves without changing its place in the barrier. -/
theorem Barrier.same (h : Barrier g s) (hi : i ∈ g.workers) (hs : SameBarrier (s.worker i) l)
    (hworker : s'.worker = Function.update s.worker i l)
    (hgen : s'.genDoneSem = s.genDoneSem) (hall : s'.allDoneSem = s.allDoneSem)
    (hmem : s'.mem.barrierCount = s.mem.barrierCount) : Barrier g s' := by
  have hposts : s'.posts g = s.posts g := by
    simp only [View.posts, hall, hworker, total_update_of_eq hi hs.passed]
  refine ⟨?_, ?_, ?_, ?_⟩
  · rw [hmem, hworker, total_update_of_eq hi hs.counted, h.count]
  · rw [hgen, hworker, total_update_of_eq hi hs.critical, h.critical]
  · rw [hposts, hmem, hworker, total_update_of_eq hi hs.posting]
    exact h.pass
  · exact h.release_of hi hworker (le_of_eq hposts.symm) hmem fun _ hrel =>
      .inr (hposts ▸ hs.releasing _ hrel)

theorem Barrier.waitGenDone (h : Barrier g s) (hi : i ∈ g.workers) {v : WorkerVars}
    (hv : s.worker i = .lockCount v) (hsem : s.genDoneSem ≠ 0) :
    Barrier g { s with
      worker := Function.update s.worker i (.incrementCount v)
      genDoneSem := s.genDoneSem - 1 } := by
  have hposts : ∀ l : WorkerLoc, l.passed = 0 →
      View.posts g { s with
        worker := Function.update s.worker i l
        genDoneSem := s.genDoneSem - 1 } = s.posts g := by
    intro l hl
    simp only [View.posts]
    rw [total_update_of_eq hi (by rw [hv, hl]; rfl)]
  refine ⟨?_, ?_, ?_, ?_⟩
  · rw [total_update_of_eq hi (by rw [hv]; rfl)]
    exact h.count
  · have hupd := total_update (f := WorkerLoc.critical) (W := s.worker)
      (l := .incrementCount v) hi
    have hcrit := h.critical
    rw [hv] at hupd
    change _ + 0 = _ + 1 at hupd
    dsimp only
    omega
  · rw [hposts _ rfl, total_update_of_eq hi (by rw [hv]; rfl)]
    exact h.pass
  · refine h.release_of hi rfl (le_of_eq (hposts _ rfl).symm) rfl fun _ hrel => ?_
    rw [hv] at hrel
    exact hrel.elim

theorem Barrier.postGenDone (h : Barrier g s) (hi : i ∈ g.workers) {v : WorkerVars}
    (hv : s.worker i = .unlockCount v) :
    Barrier g { s with
      worker := Function.update s.worker i (.testCount v)
      genDoneSem := s.genDoneSem + 1 } := by
  have hposts : View.posts g { s with
      worker := Function.update s.worker i (.testCount v)
      genDoneSem := s.genDoneSem + 1 } = s.posts g := by
    simp only [View.posts]
    rw [total_update_of_eq hi (by rw [hv]; rfl)]
  refine ⟨?_, ?_, ?_, ?_⟩
  · rw [total_update_of_eq hi (by rw [hv]; rfl)]
    exact h.count
  · have hupd := total_update (f := WorkerLoc.critical) (W := s.worker) (l := .testCount v) hi
    have hcrit := h.critical
    rw [hv] at hupd
    change _ + 1 = _ + 0 at hupd
    dsimp only
    omega
  · rw [hposts, total_update_of_eq hi (by rw [hv]; rfl)]
    exact h.pass
  · exact h.release_of hi rfl (le_of_eq hposts.symm) rfl fun _ _ => .inr trivial

/-- A worker adds itself to `barrierCount`. -/
theorem Barrier.increment (h : Barrier g s) (hi : i ∈ g.workers) {v : WorkerVars}
    (hv : s.worker i = .incrementCount v) {mem : Memory}
    (hmem : mem.barrierCount = s.mem.barrierCount + 1) :
    Barrier g { s with
      worker := Function.update s.worker i (.unlockCount v)
      mem := mem } := by
  have hposts : View.posts g { s with
      worker := Function.update s.worker i (.unlockCount v)
      mem := mem } = s.posts g := by
    simp only [View.posts]
    rw [total_update_of_eq hi (by rw [hv]; rfl)]
  refine ⟨?_, ?_, ?_, ?_⟩
  · have hupd := total_update (f := WorkerLoc.counted) (W := s.worker) (l := .unlockCount v) hi
    have hcount := h.count
    rw [hv] at hupd
    change _ + 0 = _ + 1 at hupd
    dsimp only
    omega
  · rw [total_update_of_eq hi (by rw [hv]; rfl)]
    exact h.critical
  · rw [hposts, total_update_of_eq hi (by rw [hv]; rfl)]
    intro hpos
    obtain ⟨hnone, hnone'⟩ := h.not_passed hi (by rw [hv]; rfl)
    omega
  · exact fun _ => .inr ⟨i, hi, by simp [WorkerLoc.Releasing]⟩

/-- A worker compares `barrierCount` with the number of threads. -/
theorem Barrier.test (h : Barrier g s) (hi : i ∈ g.workers) {v : WorkerVars}
    (hv : s.worker i = .testCount v) :
    Barrier g { s with
      worker := Function.update s.worker i
        (if s.mem.barrierCount = g.numberOfThreads then .postAll v 0 else .waitAll v) } := by
  have hposts : View.posts g { s with
      worker := Function.update s.worker i
        (if s.mem.barrierCount = g.numberOfThreads then .postAll v 0 else .waitAll v) } =
      s.posts g := by
    simp only [View.posts]
    rw [total_update_of_eq hi (by rw [hv]; split <;> rfl)]
  refine ⟨?_, ?_, ?_, ?_⟩
  · rw [total_update_of_eq hi (by rw [hv]; split <;> rfl)]
    exact h.count
  · rw [total_update_of_eq hi (by rw [hv]; split <;> rfl)]
    exact h.critical
  · rw [hposts]
    intro hpos
    by_contra hne
    dsimp only at hne
    rw [if_neg hne] at hpos
    rw [total_update_of_eq hi (by rw [hv]; rfl)] at hpos
    exact hne (h.pass hpos)
  · refine h.release_of hi rfl (le_of_eq hposts.symm) rfl fun hall _ => ?_
    rw [if_pos hall]
    exact .inr (Nat.zero_le _)

/-- A worker posts `alldone_sem`. -/
theorem Barrier.postAllDone (h : Barrier g s) (hi : i ∈ g.workers) {v : WorkerVars} {k : ℕ}
    (hv : s.worker i = .postAll v k) :
    Barrier g { s with
      worker := Function.update s.worker i (.postAll v (k + 1))
      allDoneSem := s.allDoneSem + 1 } := by
  have hposts : View.posts g { s with
      worker := Function.update s.worker i (.postAll v (k + 1))
      allDoneSem := s.allDoneSem + 1 } = s.posts g + 1 := by
    simp only [View.posts]
    rw [total_update_of_eq hi (by rw [hv]; rfl)]
    omega
  refine ⟨?_, ?_, ?_, ?_⟩
  · rw [total_update_of_eq hi (by rw [hv]; rfl)]
    exact h.count
  · rw [total_update_of_eq hi (by rw [hv]; rfl)]
    exact h.critical
  · intro _
    refine h.pass ?_
    have hle := le_total (f := WorkerLoc.posting) (W := s.worker) hi
    rw [hv] at hle
    exact lt_of_lt_of_le Nat.one_pos (le_trans hle (Nat.le_add_left _ _))
  · refine h.release_of hi rfl (hposts ▸ Nat.le_succ _) rfl fun _ hrel => ?_
    rw [hv] at hrel
    exact .inr (hposts ▸ Nat.succ_le_succ hrel)

/-- A worker has made all its posts of `alldone_sem`. -/
theorem Barrier.endPosts (h : Barrier g s) (hi : i ∈ g.workers) {v : WorkerVars} {k : ℕ}
    (hv : s.worker i = .postAll v k) (hk : g.numberOfThreads < k) :
    Barrier g { s with worker := Function.update s.worker i (.waitAll v) } := by
  have hposts : View.posts g { s with worker := Function.update s.worker i (.waitAll v) } =
      s.posts g := by
    simp only [View.posts]
    rw [total_update_of_eq hi (by rw [hv]; rfl)]
  refine ⟨?_, ?_, ?_, ?_⟩
  · rw [total_update_of_eq hi (by rw [hv]; rfl)]
    exact h.count
  · rw [total_update_of_eq hi (by rw [hv]; rfl)]
    exact h.critical
  · intro _
    refine h.pass ?_
    have hle := le_total (f := WorkerLoc.posting) (W := s.worker) hi
    rw [hv] at hle
    exact lt_of_lt_of_le Nat.one_pos (le_trans hle (Nat.le_add_left _ _))
  · refine h.release_of hi rfl (le_of_eq hposts.symm) rfl fun _ hrel => ?_
    rw [hv] at hrel
    exact .inl (hposts ▸ lt_of_lt_of_le hk hrel)

/-- A worker passes the barrier. -/
theorem Barrier.waitAllDone (h : Barrier g s) (hi : i ∈ g.workers) {v w : WorkerVars}
    (hv : s.worker i = .waitAll v) (hsem : s.allDoneSem ≠ 0) :
    Barrier g { s with
      worker := Function.update s.worker i (.sendAllDone w)
      allDoneSem := s.allDoneSem - 1 } := by
  have hposts : View.posts g { s with
      worker := Function.update s.worker i (.sendAllDone w)
      allDoneSem := s.allDoneSem - 1 } = s.posts g := by
    have hupd := total_update (f := WorkerLoc.passed) (W := s.worker) (l := .sendAllDone w) hi
    rw [hv] at hupd
    change _ + 0 = _ + 1 at hupd
    simp only [View.posts]
    omega
  refine ⟨?_, ?_, ?_, ?_⟩
  · rw [total_update_of_eq hi (by rw [hv]; rfl)]
    exact h.count
  · rw [total_update_of_eq hi (by rw [hv]; rfl)]
    exact h.critical
  · rw [hposts, total_update_of_eq hi (by rw [hv]; rfl)]
    exact h.pass
  · refine h.release_of hi rfl (le_of_eq hposts.symm) rfl fun _ hrel => ?_
    rw [hv] at hrel
    exact hrel.elim

end BarrierStep

section LivesStep

variable {s s' : View} {i : ℕ} {l : WorkerLoc}

/-- A running worker is one of those that `main` creates. -/
theorem Lives.mem_workers (h : Lives g s) (hok : MainOk g s.main)
    (hrun : s.status (.worker i) = .running) : i ∈ g.workers := by
  obtain ⟨hi, hlt⟩ := (h.created i).mp (by simp [hrun])
  refine Game.mem_workers.mpr ⟨hi, ?_⟩
  cases hl : s.main with
  | create k =>
      rw [hl] at hlt hok
      exact Nat.le_of_lt_succ (lt_of_lt_of_le hlt hok.2)
  | _ =>
      rw [hl] at hlt
      exact Nat.le_of_lt_succ hlt

theorem Lives.mainMoves (h : Lives g s) (hrun : s.status .main = .running)
    (hworker : s'.worker = s.worker) (hstatus : s'.status = s.status)
    (haborted : s'.aborted = s.aborted) (hcreate : s'.main.nextCreate g = s.main.nextCreate g)
    (hjoin : ∀ j, 1 ≤ j → j < s'.main.nextJoin g → s.status (.worker j) = .exited) :
    Lives g s' := by
  refine ⟨haborted.trans h.aborted, ?_, ?_, ?_, ?_⟩
  · rw [hstatus, hcreate]
    exact h.created
  · rw [hstatus, hworker]
    exact h.ended
  · rw [hstatus]
    exact hjoin
  · rw [hstatus]
    exact .inl hrun

theorem Lives.workerMoves (h : Lives g s) (hrun : s.status (.worker i) = .running)
    (hmain : s'.main = s.main) (hworker : s'.worker = Function.update s.worker i l)
    (hstatus : s'.status = s.status) (haborted : s'.aborted = s.aborted) : Lives g s' := by
  refine ⟨haborted.trans h.aborted, ?_, ?_, ?_, ?_⟩
  · rw [hstatus, hmain]
    exact h.created
  · rw [hstatus, hworker]
    intro j hj
    have hji : j ≠ i := by
      rintro rfl
      rw [hrun] at hj
      contradiction
    rw [Function.update_of_ne hji]
    exact h.ended j hj
  · rw [hstatus, hmain]
    exact h.joined
  · rw [hstatus, hmain]
    exact h.main

end LivesStep

section Step

variable {s s' : View}

/-- Every move of `main` keeps the invariant. -/
theorem Inv.mainMove (h : Inv g s) (hrun : s.status .main = .running) (hm : MainMove g s s') :
    Inv g s' := by
  obtain ⟨hsend, hrecv, haccess⟩ := lives_of_code h.flow.mainOk
  cases hm with
  | send b m l hi hb =>
      obtain ⟨hcreate, hjoin⟩ := hsend b m l hi
      exact ⟨h.flow.mainSend (mainSend_of_code h.flow.mainOk hi) hb,
        h.barrier.congr rfl rfl rfl rfl,
        h.lives.mainMoves hrun rfl rfl rfl hcreate (hjoin ▸ h.lives.joined)⟩
  | recv b l m hi hb =>
      obtain ⟨hcreate, hjoin⟩ := hrecv b l m hi
      obtain ⟨rfl, hc⟩ := mainRecv_of_code h.flow.mainOk hi
      exact ⟨h.flow.mainRecv (hc m (h.flow.type m hb)) hb, h.barrier.congr rfl rfl rfl rfl,
        h.lives.mainMoves hrun rfl rfl rfl hcreate (hjoin ▸ h.lives.joined)⟩
  | access f hi =>
      obtain ⟨hcreate, hjoin⟩ := haccess f s.mem hi
      obtain ⟨hc, hcount⟩ := mainQuiet_of_access h.flow.mainOk hi s.mem
      exact ⟨h.flow.mainQuiet h.barrier hc rfl rfl rfl, h.barrier.congr rfl rfl rfl hcount,
        h.lives.mainMoves hrun rfl rfl rfl hcreate (hjoin ▸ h.lives.joined)⟩
  | create u l hi =>
      obtain ⟨hc, k, hk, hkT, rfl, rfl⟩ := mainQuiet_of_create h.flow.mainOk hi
      have hnext : s.main.nextCreate g = k := by rw [hk]; rfl
      have hok := h.flow.mainOk
      rw [hk] at hok
      refine ⟨h.flow.mainQuiet h.barrier hc rfl rfl rfl, h.barrier.congr rfl rfl rfl rfl,
        h.lives.aborted, ?_, ?_, ?_, ?_⟩
      · intro j
        have hcreated := h.lives.created j
        rw [hnext] at hcreated
        change _ ↔ 1 ≤ j ∧ j < k + 1
        have hk1 := hok.1
        by_cases hjk : j = k
        · subst hjk
          simp
          exact hk1
        · have hne : ThreadId.worker j ≠ .worker k := by simp [hjk]
          simp only [Function.update_of_ne hne]
          rw [hcreated]
          omega
      · intro j hj
        have hjk : j ≠ k := by
          rintro rfl
          simp at hj
        exact h.lives.ended j (by simpa [hjk] using hj)
      · intro j hj hlt
        change j < 1 at hlt
        omega
      · exact .inl (by simpa using hrun)
  | join u l hi hu =>
      obtain ⟨hc, cGen, al, k, hk, hkT, rfl, rfl⟩ := mainQuiet_of_join h.flow.mainOk hi
      refine ⟨h.flow.mainQuiet h.barrier hc rfl rfl rfl, h.barrier.congr rfl rfl rfl rfl,
        h.lives.mainMoves hrun rfl rfl rfl (by rw [hk]; rfl) ?_⟩
      intro j hj hlt
      change j < k + 1 at hlt
      by_cases hjk : j = k
      · exact hjk ▸ hu
      · exact h.lives.joined j hj (by rw [hk]; exact lt_of_le_of_ne (Nat.le_of_lt_succ hlt) hjk)
  | exit hi =>
      refine ⟨⟨h.flow.mainOk, h.flow.workerOk, h.flow.channel, h.flow.parent, h.flow.type,
        h.flow.floor⟩, h.barrier.congr rfl rfl rfl rfl, h.lives.aborted, ?_, ?_, ?_, ?_⟩
      · exact fun j => by simpa using h.lives.created j
      · exact fun j hj => h.lives.ended j (by simpa using hj)
      · exact fun j hj hlt => by simpa using h.lives.joined j hj hlt
      · exact .inr ⟨by simp, finished_of_exit hi⟩

/-- Every move of a worker keeps the invariant. -/
theorem Inv.workerMove {i : ℕ} (h : Inv g s) (hrun : s.status (.worker i) = .running)
    (hm : WorkerMove g i s s') : Inv g s' := by
  have hmem := h.lives.mem_workers h.flow.mainOk hrun
  have hok := h.flow.workerOk i hmem
  cases hm with
  | send b m l hi hb =>
      obtain ⟨rfl, hc⟩ := workerSend_of_code hok hi
      exact ⟨h.flow.workerSend h.barrier hmem hc hb,
        h.barrier.same hmem hc.barrier rfl rfl rfl rfl, h.lives.workerMoves hrun rfl rfl rfl rfl⟩
  | recv b l m hi hb =>
      obtain ⟨rfl, hc⟩ := workerRecv_of_code hok hi
      have hch := h.flow.channel b hmem
      have hc := hc (s.main.goSentTo b) m hch.go (hch.content m hb)
      exact ⟨h.flow.workerRecv hmem hc hb, h.barrier.same hmem hc.barrier rfl rfl rfl rfl,
        h.lives.workerMoves hrun rfl rfl rfl rfl⟩
  | waitGenDone l hi hq =>
      obtain ⟨hc, v, hv, rfl⟩ := lockCount_of_wait hok hi
      exact ⟨h.flow.workerQuiet hmem hc rfl rfl rfl, h.barrier.waitGenDone hmem hv hq,
        h.lives.workerMoves hrun rfl rfl rfl rfl⟩
  | waitAllDone l hi hq =>
      obtain ⟨hc, v, w, hv, rfl⟩ := waitAll_of_wait hok hi
      exact ⟨h.flow.workerQuiet hmem hc rfl rfl rfl, h.barrier.waitAllDone hmem hv hq,
        h.lives.workerMoves hrun rfl rfl rfl rfl⟩
  | postGenDone l hi =>
      obtain ⟨hc, v, hv, rfl⟩ := unlockCount_of_post hok hi
      exact ⟨h.flow.workerQuiet hmem hc rfl rfl rfl, h.barrier.postGenDone hmem hv,
        h.lives.workerMoves hrun rfl rfl rfl rfl⟩
  | postAllDone l hi =>
      obtain ⟨hc, v, k, hv, rfl⟩ := postAll_of_post hok hi
      exact ⟨h.flow.workerQuiet hmem hc rfl rfl rfl, h.barrier.postAllDone hmem hv,
        h.lives.workerMoves hrun rfl rfl rfl rfl⟩
  | access f hi =>
      obtain ⟨hc, hcases⟩ := workerAccess_of_code hok hi s.mem
      refine ⟨h.flow.workerQuiet hmem hc rfl rfl rfl, ?_,
        h.lives.workerMoves hrun rfl rfl rfl rfl⟩
      rcases hcases with ⟨hcount, hsame⟩ | ⟨v, hv, hl, hcount⟩ | ⟨v, hv, hmem', hl⟩ |
        ⟨v, k, hv, hk, hmem', hl⟩
      · exact h.barrier.same hmem hsame rfl rfl rfl hcount
      · rw [hl]
        exact h.barrier.increment hmem hv hcount
      · rw [hl, hmem']
        exact h.barrier.test hmem hv
      · rw [hl, hmem']
        exact h.barrier.endPosts hmem hv hk
  | exit hi =>
      refine ⟨⟨h.flow.mainOk, h.flow.workerOk, h.flow.channel, h.flow.parent, h.flow.type,
        h.flow.floor⟩, h.barrier.congr rfl rfl rfl rfl, h.lives.aborted, ?_, ?_, ?_, ?_⟩
      · intro j
        have hcreated := h.lives.created j
        by_cases hji : j = i
        · subst hji
          simp only [hrun] at hcreated
          simpa using hcreated
        · simpa [hji] using hcreated
      · intro j hj
        by_cases hji : j = i
        · subst hji
          exact ended_of_exit hi
        · exact h.lives.ended j (by simpa [hji] using hj)
      · intro j hj hlt
        by_cases hji : j = i
        · subst hji
          simp
        · simpa [hji] using h.lives.joined j hj hlt
      · simpa using h.lives.main
  | abort hi => exact absurd (wrongMessage_of_abort hi) hok.right

/-- The parts of the first state. -/
def View.start (g : Game) : View where
  main := .create 1
  worker := fun _ => .recvRange
  box := fun _ => none
  genDoneSem := 1
  allDoneSem := 0
  mem := g.memory
  status := fun t => if t = .main then .running else .new
  aborted := false

theorem view_start (g : Game) (blank : Msg) :
    view (abstract (g.start blank)) = View.start g := by
  have hmain : (abstract (g.start blank)).loc .main = MainLoc.create 1 :=
    abstractLoc_of_entry rfl
  have hworker : ∀ i, (abstract (g.start blank)).loc (.worker i) = WorkerLoc.recvRange :=
    fun _ => rfl
  simp only [view, View.start, hmain, hworker]
  rfl

/-- The invariant holds when only `main` runs. -/
theorem inv_start (g : Game) : Inv g (View.start g) := by
  have hT := g.one_le_threads
  have hG := g.one_le_generations
  have hzero : ∀ f : WorkerLoc → ℕ, f .recvRange = 0 → total g f (View.start g).worker = 0 := by
    intro f hf
    simp [total, View.start, hf]
  have hposts : (View.start g).posts g = 0 := by
    rw [View.posts, hzero _ rfl]
    rfl
  refine ⟨⟨⟨le_refl _, by omega⟩, fun i _ => ⟨?_, fun _ => hG, ?_, ?_, ?_, ?_⟩,
    fun i _ => ⟨rfl, le_refl _, ?_, ?_⟩, ?_, ?_, fun i _ => le_refl _⟩, ⟨?_, ?_, ?_, ?_⟩,
    ⟨rfl, ?_, ?_, ?_, .inl rfl⟩⟩
  · exact fun v hv => by simp [View.start, WorkerLoc.vars?] at hv
  · exact fun h => absurd h (by simp [View.start, WorkerLoc.inBarrier, WorkerLoc.counted])
  · exact fun v hv => by simp [View.start] at hv
  · exact fun v hv => by simp [View.start] at hv
  · simp [View.start]
  · exact fun m hm => by simp [View.start] at hm
  · exact fun h => absurd h (by simp [View.start, WorkerLoc.halted])
  · rw [hzero _ rfl]
    simp [View.start, MainLoc.collected, MainLoc.rounds, MainLoc.extra]
  · exact fun m hm => by simp [View.start] at hm
  · exact (hzero _ rfl).symm
  · rw [hzero _ rfl]
    rfl
  · rw [hposts, hzero _ rfl]
    exact fun h => absurd h (by simp)
  · intro h
    change 0 = g.numberOfThreads at h
    omega
  · intro i
    change (if ThreadId.worker i = .main then Status.running else .new) ≠ .new ↔ 1 ≤ i ∧ i < 1
    simp
    omega
  · intro i h
    change (if ThreadId.worker i = .main then Status.running else .new) = .exited at h
    simp at h
  · intro i hi hlt
    change i < 1 at hlt
    omega

/-- The atomic machine of life starts in the reading of the first state. -/
def Game.init (g : Game) (blank : Msg) : Atomic g.program := abstract (g.start blank)

/-- Every reachable state satisfies the invariant. -/
theorem inv_of_reachable {blank : Msg} {a : Atomic g.program}
    (ha : Transition.Reachable atomicNext (g.init blank) a) : Inv g (view a) := by
  refine ha.invariant (I := fun a => Inv g (view a)) (view_start g blank ▸ inv_start g) ?_
  intro t a a' _ hinv hnext
  obtain ⟨-, hrun, hm⟩ := move_of_step hnext
  cases t with
  | main => exact hinv.mainMove hrun hm
  | worker i => exact hinv.workerMove hrun hm

end Step

end Life

end OperatingSystems
