import Mathlib.Order.Interval.Finset.Nat
import OperatingSystems.Team.Results
import OperatingSystems.Thread.Timed

/-!
# How a team ends

All threads of a team take a fixed number of steps: eight for each worker, and for
the parent eight for each worker and two more. So every schedule that goes through
has at most that length, one that is shorter can be continued, and one of that
length ends with all threads exited and every mailbox as it was at first.
-/

namespace OperatingSystems

namespace Team

open OperatingSystems.Thread

variable {Msg Acc : Type}

section Counts

variable (job : Job Msg Acc)

/-- The steps that the parent has left. -/
def ParentLoc.left : ParentLoc Acc → ℕ
  | .create i => (job.size + 1 - i) + (7 * job.size + 2)
  | .send i => 3 * (job.size + 1 - i) + (4 * job.size + 2)
  | .joinFirst i => (job.size + 1 - i) + (3 * job.size + 2)
  | .gather i _ => 3 * (job.size + 1 - i) + if job.own then 2 else job.size + 2
  | .report _ => if job.own then 2 else job.size + 2
  | .joinLast i _ => (job.size + 1 - i) + 1
  | .finished _ => 1

/-- The steps that a worker has left, which never fails. -/
def WorkerLoc.left : WorkerLoc Msg → ℕ
  | .receive => 8
  | .compute _ => 5
  | .reply _ => 4
  | .returned => 1
  | .failed => 0

def Job.left : ∀ t : Member, Loc Msg Acc t → ℕ
  | .parent => ParentLoc.left job
  | .worker _ => WorkerLoc.left

def Job.threads : Finset Member :=
  insert .parent ((Finset.Icc 1 job.size).image .worker)

/-- The steps of all threads together. -/
def Job.steps : ℕ := 16 * job.size + 2

variable {job} {i : ℕ} {acc : Acc}

@[simp] theorem parent_mem_threads : Member.parent ∈ job.threads := by
  simp [Job.threads]

@[simp] theorem worker_mem_threads : Member.worker i ∈ job.threads ↔ 1 ≤ i ∧ i ≤ job.size := by
  simp [Job.threads]

theorem left_forCreate (hi : i ≤ job.size) :
    ParentLoc.left job (.create i) = (job.forCreate (i + 1)).left job + 1 := by
  unfold Job.forCreate
  split <;> simp only [ParentLoc.left] <;> omega

theorem left_forSend (hi : i ≤ job.size) :
    ParentLoc.left job (.send i) = (job.forSend (i + 1)).left job + 3 := by
  unfold Job.forSend
  split
  · simp only [ParentLoc.left]
    omega
  · split
    · simp only [ParentLoc.left]
      omega
    · rename_i hown
      simp only [ParentLoc.left]
      rw [if_neg hown]
      omega

theorem left_forJoinFirst (hi : i ≤ job.size) (hown : job.own = true) :
    ParentLoc.left job (.joinFirst i) = (job.forJoinFirst (i + 1)).left job + 1 := by
  unfold Job.forJoinFirst
  split
  · simp only [ParentLoc.left]
    omega
  · simp only [ParentLoc.left, hown, if_true]
    omega

theorem left_forGather (acc acc' : Acc) (hi : i ≤ job.size) :
    ParentLoc.left job (.gather i acc) = (job.forGather (i + 1) acc').left job + 3 := by
  unfold Job.forGather
  split <;> simp only [ParentLoc.left] <;> omega

theorem left_afterReport (acc : Acc) :
    ParentLoc.left job (.report acc) = (job.afterReport acc).left job + 1 := by
  unfold Job.afterReport
  split
  · rename_i hown
    simp only [ParentLoc.left, hown, if_true]
  · rename_i hown
    simp only [ParentLoc.left]
    rw [if_neg hown]
    omega

theorem left_forJoinLast (hi : i ≤ job.size) :
    ParentLoc.left job (.joinLast i acc) = (job.forJoinLast (i + 1) acc).left job + 1 := by
  unfold Job.forJoinLast
  split <;> simp only [ParentLoc.left] <;> omega

end Counts

section Timed

variable {job : Job Msg Acc} {reply : ℕ → Msg} {blank : Msg} {s : State job.program} {i : ℕ}

/-- The instruction of the parent is one of the steps that it has left. -/
theorem parentCounts (hreply : job.Replies reply)
    (hs : Transition.Reachable next (job.init blank) s) :
    (job.program.code .parent (s.loc .parent)).Counts s.mem s.status (job.left .parent)
      (job.left .parent (s.loc .parent)) := by
  have hok := parentOk_loc hreply hs
  cases hl : (show ParentLoc Acc from s.loc .parent) with
  | create i =>
      have hloc : s.loc .parent = ParentLoc.create i := hl
      rw [hloc] at hok ⊢
      refine ⟨left_forCreate hok.2, ?_⟩
      obtain ⟨order, hinv⟩ := inv_of_reachable hreply
        (abstract_reachable (exclusive_init job blank) hs)
      have hview : (view (abstract s)).parent = .create i := by
        refine (abstractLoc_of_not_recv (P := job.program) fun b k => ?_).trans hloc
        simp [hloc, Job.parentCode]
      have hcreated := hinv.created i
      rw [hview] at hcreated
      have hnew : s.status (.worker i) = .new := by
        by_contra hno
        have hle : 1 ≤ i ∧ i ≤ i - 1 := hcreated.mp hno
        omega
      simp [hnew]
  | send i =>
      have hloc : s.loc .parent = ParentLoc.send i := hl
      rw [hloc] at hok ⊢
      exact left_forSend hok.2
  | joinFirst i =>
      have hloc : s.loc .parent = ParentLoc.joinFirst i := hl
      rw [hloc] at hok ⊢
      exact left_forJoinFirst hok.2.1 hok.2.2
  | gather i acc =>
      have hloc : s.loc .parent = ParentLoc.gather i acc := hl
      rw [hloc] at hok ⊢
      exact fun m => left_forGather acc (job.absorb acc m) hok.2
  | report acc =>
      have hloc : s.loc .parent = ParentLoc.report acc := hl
      rw [hloc]
      exact left_afterReport acc
  | joinLast i acc =>
      have hloc : s.loc .parent = ParentLoc.joinLast i acc := hl
      rw [hloc] at hok ⊢
      exact left_forJoinLast hok.2.1
  | finished acc =>
      have hloc : s.loc .parent = ParentLoc.finished acc := hl
      rw [hloc]
      rfl

/-- The instruction of a worker is one of the steps that it has left. -/
theorem workerCounts (hreply : job.Replies reply)
    (hs : Transition.Reachable next (job.init blank) s) (hi : 1 ≤ i) (hin : i ≤ job.size) :
    (job.program.code (.worker i) (s.loc (.worker i))).Counts s.mem s.status
      (job.left (.worker i)) (job.left (.worker i) (s.loc (.worker i))) := by
  cases hl : (show WorkerLoc Msg from s.loc (.worker i)) with
  | receive =>
      have hloc : s.loc (.worker i) = WorkerLoc.receive := hl
      rw [hloc]
      exact fun m => rfl
  | compute m =>
      have hloc : s.loc (.worker i) = WorkerLoc.compute m := hl
      obtain ⟨order, hinv⟩ := inv_of_reachable hreply
        (abstract_reachable (exclusive_init job blank) hs)
      have hview : (view (abstract s)).worker i = .compute m := by
        refine (abstractLoc_of_not_recv (P := job.program) fun b k => ?_).trans hloc
        simp [hloc, Job.workerCode]
      have hworker := hinv.workerOk i hi hin
      rw [hview] at hworker
      obtain ⟨-, rfl, -⟩ := hworker
      have hwork := hreply i hi hin
      rw [hloc]
      simp only [Job.workerCode, hwork]
      rfl
  | reply m =>
      have hloc : s.loc (.worker i) = WorkerLoc.reply m := hl
      rw [hloc]
      rfl
  | returned =>
      have hloc : s.loc (.worker i) = WorkerLoc.returned := hl
      rw [hloc]
      rfl
  | failed => exact absurd hl ((not_failed hreply hs).2 i hi hin)

theorem timed_init (hreply : job.Replies reply) (blank : Msg) :
    Timed (job.init blank) job.threads job.left where
  exclusive := exclusive_init job blank
  mem_threads := by
    intro s hs t ha
    obtain ⟨order, hinv⟩ := inv_of_reachable hreply
      (abstract_reachable (exclusive_init job blank) hs)
    cases t with
    | parent => exact parent_mem_threads
    | worker i =>
        refine worker_mem_threads.mpr (hinv.mem_size ?_)
        change s.status (.worker i) ≠ .new
        rw [ha.2]
        simp
  counts := by
    intro s hs t ha
    obtain ⟨order, hinv⟩ := inv_of_reachable hreply
      (abstract_reachable (exclusive_init job blank) hs)
    cases t with
    | parent => exact parentCounts hreply hs
    | worker i =>
        obtain ⟨hi, hin⟩ := hinv.mem_size (i := i) (by
          change s.status (.worker i) ≠ .new
          rw [ha.2]
          simp)
        exact workerCounts hreply hs hi hin

theorem remaining_init (job : Job Msg Acc) (blank : Msg) :
    (job.init blank).remaining job.left job.threads = job.steps := by
  have hparent : (job.init blank).toDo job.left .parent = 8 * job.size + 2 := by
    change (job.size + 1 - 1) + (7 * job.size + 2) = _
    omega
  have hworker : ∀ i, (job.init blank).toDo job.left (.worker i) = 8 := fun i => rfl
  have hnot : Member.parent ∉ (Finset.Icc 1 job.size).image Member.worker := by simp
  have hinj : Set.InjOn Member.worker (Finset.Icc 1 job.size) :=
    fun i _ j _ h => Member.worker.inj h
  unfold State.remaining Job.threads Job.steps
  rw [Finset.sum_insert hnot, Finset.sum_image hinj, hparent,
    Finset.sum_const_nat fun i _ => hworker i, Nat.card_Icc]
  omega

end Timed

section Ending

/-- All threads have ended, and every mailbox is as it was at first. -/
structure Ended {job : Job Msg Acc} (s : State job.program) : Prop where
  parent : ∃ acc, s.loc .parent = ParentLoc.finished acc
  exited : ∀ t ∈ job.threads, s.status t = .exited
  running : ∀ t, s.status t ≠ .running
  boxes : ∀ b, s.free b = 1 ∧ s.ready b = 0 ∧ s.deposited b = s.returned b

variable {job : Job Msg Acc} {reply : ℕ → Msg} {blank : Msg} {s : State job.program}

/-- The mailboxes of no worker are empty, up to the one for the replies. -/
theorem box_eq_none (hreply : job.Replies reply) {a : Atomic job.program}
    (ha : Transition.Reachable atomicNext (abstract (job.init blank)) a) {b : ℕ}
    (hb : ¬ (1 ≤ b ∧ b ≤ job.size)) (hreplies : ∀ i, job.replyBox i = b → i = b) :
    (view a).box b = none := by
  have hinvariant : (∃ order, Inv job reply order (view a)) ∧ (view a).box b = none := by
    refine ha.invariant (I := fun a => (∃ order, Inv job reply order (view a)) ∧
      (view a).box b = none) ⟨⟨[], inv_init job reply blank⟩, rfl⟩ ?_
    rintro t a a' _ ⟨⟨order, hinv⟩, hnone⟩ hnext
    refine ⟨inv_of_reachable hreply (Relation.ReflTransGen.tail ‹_› ⟨t, hnext⟩), ?_⟩
    obtain ⟨hrun, hm⟩ := move_of_step hnext
    cases t with
    | parent =>
        have hm : ParentMove job (view a) (view a') := hm
        generalize hview : view a' = s' at hm
        cases hm with
        | send i hl hbox =>
            have hok := hinv.parentOk
            rw [hl] at hok
            have hne : b ≠ i := by
              rintro rfl
              exact hb hok
            exact (Function.update_of_ne hne _ _).trans hnone
        | gather i acc m hl hbox =>
            by_cases hbi : b = job.replyBox i
            · subst hbi
              exact Function.update_self _ _ _
            · exact (Function.update_of_ne hbi _ _).trans hnone
        | _ => exact hnone
    | worker i =>
        have hm : WorkerMove job i (view a) (view a') := hm
        have hi := hinv.mem_size (i := i) (by rw [hrun]; simp)
        generalize hview : view a' = s' at hm
        cases hm with
        | receive m hl hbox =>
            have hne : b ≠ i := by
              rintro rfl
              exact hb hi
            exact (Function.update_of_ne hne _ _).trans hnone
        | reply m hl hbox =>
            have hne : b ≠ job.replyBox i := by
              rintro rfl
              have heq := hreplies i rfl
              rw [← heq] at hb
              exact hb hi
            exact (Function.update_of_ne hne _ _).trans hnone
        | _ => exact hnone
  exact hinvariant.2

/-- Once the parent has ended all mailboxes are empty. -/
theorem box_of_finished {order : List ℕ} {a : Atomic job.program} (hreply : job.Replies reply)
    (ha : Transition.Reachable atomicNext (abstract (job.init blank)) a)
    (h : Inv job reply order (view a)) {acc : Acc} (hl : (view a).parent = .finished acc)
    (b : ℕ) : (view a).box b = none := by
  by_cases hb : 1 ≤ b ∧ b ≤ job.size
  · have hret : (view a).worker b = .returned := by
      apply h.exited
      apply h.joined b hb.1
      rw [hl]
      exact hb.2
    have hworker := h.workerOk b hb.1 hb.2
    rw [hret, hl] at hworker
    have hno : ¬ (job.own = true ∧ job.size < b) := by omega
    exact hworker.2.trans (if_neg hno)
  · cases hown : job.own with
    | true =>
        refine box_eq_none hreply ha hb fun i hi => ?_
        rwa [Job.replyBox, if_pos hown] at hi
    | false =>
        by_cases hzero : b = 0
        · subst hzero
          obtain ⟨pending, horder⟩ := h.order
          have hgathered : order.length = job.size := by
            rw [horder.length, hl]
            rfl
          have hnodup := horder.nodup
          have hsub : (order ++ pending).length ≤ job.size := by
            have hsubset : order ++ pending ⊆ List.range' 1 job.size := by
              intro i hi
              have hmem := ((horder.mem i).mp hi).1
              rw [List.mem_range'_1]
              omega
            have hle := (List.subperm_of_subset hnodup hsubset).length_le
            rwa [List.length_range'] at hle
          rw [List.length_append, hgathered] at hsub
          have hnil : pending = [] := List.eq_nil_of_length_eq_zero (by omega)
          rw [(horder.shared hown).1, hnil]
          rfl
        · refine box_eq_none hreply ha hb fun i hi => ?_
          rw [Job.replyBox, hown] at hi
          exact absurd hi.symm hzero

/-- A run that cannot go on has ended. -/
theorem ended_of_stuck (hreply : job.Replies reply)
    (hs : Transition.Reachable next (job.init blank) s) (h : Transition.Stuck next s) :
    Ended s := by
  have hexcl := exclusive_init job blank
  have habstract := abstract_reachable hexcl hs
  obtain ⟨order, hinv⟩ := inv_of_reachable hreply habstract
  have hexited := exited_of_stuck hreply hs h
  obtain ⟨acc, hl⟩ : ∃ acc, (view (abstract s)).parent = .finished acc := by
    rcases hinv.parent with hrun | ⟨-, hl⟩
    · exact absurd (hexited.symm.trans hrun) (by simp)
    · exact hl
  have hworkers : ∀ i, 1 ≤ i → i ≤ job.size → s.status (.worker i) = .exited := by
    intro i hi hin
    refine hinv.joined i hi ?_
    rw [hl]
    exact hin
  have hrunning : ∀ t, s.status t ≠ .running := by
    intro t
    cases t with
    | parent => simp [hexited]
    | worker i =>
        intro hrun
        obtain ⟨hi, hin⟩ := hinv.mem_size (i := i) (by
          change s.status (.worker i) ≠ .new
          simp [hrun])
        simp [hworkers i hi hin] at hrun
  have hentry : ∀ t, s.phase t = .entry := by
    intro t
    by_contra hp
    exact hrunning t ((hexcl.of_reachable hs).inside t hp).1
  refine ⟨⟨acc, ?_⟩, fun t ht => ?_, hrunning, fun b => ?_⟩
  · rw [← hl]
    exact (abstractLoc_of_entry (hentry _)).symm
  · cases t with
    | parent => exact hexited
    | worker i =>
        obtain ⟨hi, hin⟩ := worker_mem_threads.mp ht
        exact hworkers i hi hin
  · have hready : s.ready b = 0 := by
      have hnone := box_of_finished hreply habstract hinv hl b
      by_contra hno
      have hsome : (view (abstract s)).box b = some (s.slot b) := if_neg hno
      rw [hnone] at hsome
      contradiction
    cases (hexcl.of_reachable hs).box b with
    | free hf hr hh hlog => exact ⟨hf, hr, hlog⟩
    | ready hf hr hh hlog => omega
    | busy t hf hr hh hin =>
        have hheld := (hh t).mpr rfl
        rw [held_of_entry (hentry t)] at hheld
        contradiction

/-- A schedule can be continued up to the number of steps of all threads, and
ends there. -/
theorem ended_iff_of_run (hreply : job.Replies reply) {ts : List Member}
    (hrun : Transition.run next ts (job.init blank) = some s) :
    ts.length ≤ job.steps ∧ (ts.length = job.steps ↔ Transition.Stuck next s) ∧
      (Transition.Stuck next s ↔ Ended s) := by
  have htimed := timed_init hreply blank
  have hs := Transition.Reachable.of_run ts Relation.ReflTransGen.refl hrun
  have hlen := htimed.length_of_run hrun
  rw [remaining_init] at hlen
  have hstuck : Transition.Stuck next s ↔ Ended s := by
    refine ⟨ended_of_stuck hreply hs, fun hended t => ?_⟩
    exact next_eq_none_of_not_active fun ha => hended.running t ha.2
  refine ⟨by omega, ⟨fun heq => ?_, fun h => ?_⟩, hstuck⟩
  · exact htimed.stuck_of_remaining hs (by omega)
  · have hended := hstuck.mp h
    have hzero : s.remaining job.left job.threads = 0 := by
      refine Finset.sum_eq_zero fun t ht => ?_
      exact if_pos (hended.exited t ht)
    omega

end Ending

end Team

end OperatingSystems
