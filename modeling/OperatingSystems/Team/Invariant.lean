import Mathlib.Data.List.Nodup
import OperatingSystems.Team.Program

/-!
# What holds in every state of a team

The counts of the parent say how many workers it has created, how many requests
it has sent, how many workers it has joined and how many replies it has taken.
A worker's mailbox holds its request until the worker takes it, and where the
replies come back the same way it holds the reply from then on until the parent
takes it. `Order` lists the workers that have replied, first those whose replies
have been taken, in the order in which they were, and then those whose replies
are pending.
-/

namespace OperatingSystems

namespace Team

open OperatingSystems.Thread

variable {Msg Acc : Type}

section Counts

namespace ParentLoc

/-- The workers that the parent has created. -/
def created (job : Job Msg Acc) : ParentLoc Acc → ℕ
  | .create i => i - 1
  | _ => job.size

/-- The requests that the parent has sent. -/
def sent (job : Job Msg Acc) : ParentLoc Acc → ℕ
  | .create _ => 0
  | .send i => i - 1
  | _ => job.size

/-- The replies that the parent has taken. -/
def gathered (job : Job Msg Acc) : ParentLoc Acc → ℕ
  | .create _ => 0
  | .send _ => 0
  | .joinFirst _ => 0
  | .gather i _ => i - 1
  | _ => job.size

/-- The workers that the parent has joined. -/
def joined (job : Job Msg Acc) : ParentLoc Acc → ℕ
  | .create _ => 0
  | .send _ => 0
  | .joinFirst i => i - 1
  | .gather _ _ => if job.own then job.size else 0
  | .report _ => if job.own then job.size else 0
  | .joinLast i _ => i - 1
  | .finished _ => job.size

/-- What the parent has made of the replies. -/
def acc? : ParentLoc Acc → Option Acc
  | .create _ => none
  | .send _ => none
  | .joinFirst _ => none
  | .gather _ acc => some acc
  | .report acc => some acc
  | .joinLast _ acc => some acc
  | .finished acc => some acc

end ParentLoc

/-- The local variables of the parent. -/
def ParentOk (job : Job Msg Acc) : ParentLoc Acc → Prop
  | .create i => 1 ≤ i ∧ i ≤ job.size
  | .send i => 1 ≤ i ∧ i ≤ job.size
  | .joinFirst i => 1 ≤ i ∧ i ≤ job.size ∧ job.own = true
  | .gather i _ => 1 ≤ i ∧ i ≤ job.size
  | .report _ => True
  | .joinLast i _ => 1 ≤ i ∧ i ≤ job.size ∧ job.own = false
  | .finished _ => True

/-- The counts at a control point. -/
structure At (job : Job Msg Acc) (l : ParentLoc Acc) (created sent joined gathered : ℕ) :
    Prop where
  ok : ParentOk job l
  created : l.created job = created
  sent : l.sent job = sent
  joined : l.joined job = joined
  gathered : l.gathered job = gathered

variable {job : Job Msg Acc} {i : ℕ} {acc : Acc}

theorem at_forCreate (hi : i ≤ job.size) : At job (job.forCreate (i + 1)) i 0 0 0 := by
  have hn := job.one_le_size
  unfold Job.forCreate
  split
  · exact ⟨⟨by omega, by omega⟩, by simp [ParentLoc.created], rfl, rfl, rfl⟩
  · exact ⟨⟨le_refl _, hn⟩, by simp only [ParentLoc.created]; omega, rfl, rfl, rfl⟩

theorem at_forSend (hi : i ≤ job.size) : At job (job.forSend (i + 1)) job.size i 0 0 := by
  have hn := job.one_le_size
  unfold Job.forSend
  split
  · exact ⟨⟨by omega, by omega⟩, rfl, by simp [ParentLoc.sent], rfl, rfl⟩
  · split
    · rename_i hown
      exact ⟨⟨le_refl _, hn, hown⟩, rfl, by simp only [ParentLoc.sent]; omega, rfl, rfl⟩
    · rename_i hown
      exact ⟨⟨le_refl _, hn⟩, rfl, by simp only [ParentLoc.sent]; omega,
        by simp [ParentLoc.joined, hown], rfl⟩

theorem at_forJoinFirst (hi : i ≤ job.size) (hown : job.own = true) :
    At job (job.forJoinFirst (i + 1)) job.size job.size i 0 := by
  have hn := job.one_le_size
  unfold Job.forJoinFirst
  split
  · exact ⟨⟨by omega, by omega, hown⟩, rfl, rfl, by simp [ParentLoc.joined], rfl⟩
  · refine ⟨⟨le_refl _, hn⟩, rfl, rfl, ?_, rfl⟩
    simp only [ParentLoc.joined, if_pos hown]
    omega

theorem at_forGather (acc : Acc) (hi : i ≤ job.size) :
    At job (job.forGather (i + 1) acc) job.size job.size
      (if job.own then job.size else 0) i := by
  unfold Job.forGather
  split
  · exact ⟨⟨by omega, by omega⟩, rfl, rfl, rfl, by simp [ParentLoc.gathered]⟩
  · exact ⟨trivial, rfl, rfl, rfl, by simp only [ParentLoc.gathered]; omega⟩

theorem at_afterReport (job : Job Msg Acc) (acc : Acc) :
    At job (job.afterReport acc) job.size job.size (if job.own then job.size else 0)
      job.size := by
  have hn := job.one_le_size
  unfold Job.afterReport
  split
  · exact ⟨trivial, rfl, rfl, rfl, rfl⟩
  · rename_i hown
    exact ⟨⟨le_refl _, hn, by simpa using hown⟩, rfl, rfl, rfl, rfl⟩

theorem at_forJoinLast (acc : Acc) (hi : i ≤ job.size) (hown : job.own = false) :
    At job (job.forJoinLast (i + 1) acc) job.size job.size i job.size := by
  unfold Job.forJoinLast
  split
  · exact ⟨⟨by omega, by omega, hown⟩, rfl, rfl, by simp [ParentLoc.joined], rfl⟩
  · exact ⟨trivial, rfl, rfl, by simp only [ParentLoc.joined]; omega, rfl⟩

end Counts

section Invariant

variable (job : Job Msg Acc) (reply : ℕ → Msg)

/-- `reply i` is what worker `i` makes of its request. -/
def Job.Replies : Prop :=
  ∀ i, 1 ≤ i → i ≤ job.size → job.work (job.request i) = some (reply i)

/-- What the mailbox `o` of worker `i` holds. -/
def WorkerOk (sent gathered i : ℕ) (o : Option Msg) : WorkerLoc Msg → Prop
  | .receive => o = if i ≤ sent then some (job.request i) else none
  | .compute m => i ≤ sent ∧ m = job.request i ∧ o = none
  | .reply m => i ≤ sent ∧ m = reply i ∧ o = none
  | .returned => i ≤ sent ∧ o = if job.own = true ∧ gathered < i then some (reply i) else none
  | .failed => False

/-- The workers whose replies have been taken, in this order, and those whose
replies are pending. -/
structure Order (s : View Msg Acc) (order pending : List ℕ) : Prop where
  mem : ∀ i, i ∈ order ++ pending ↔ (1 ≤ i ∧ i ≤ job.size) ∧ s.worker i = .returned
  nodup : (order ++ pending).Nodup
  length : order.length = s.parent.gathered job
  own : job.own = true → order = List.range' 1 order.length
  shared : job.own = false → s.box 0 = pending.head?.map reply ∧ pending.length ≤ 1
  acc : ∀ acc, s.parent.acc? = some acc → acc = (order.map reply).foldl job.absorb job.start

/-- What holds in every reachable state, where `order` lists the workers whose
replies have been taken. -/
structure Inv (order : List ℕ) (s : View Msg Acc) : Prop where
  parentOk : ParentOk job s.parent
  workerOk : ∀ i, 1 ≤ i → i ≤ job.size →
    WorkerOk job reply (s.parent.sent job) (s.parent.gathered job) i (s.box i) (s.worker i)
  order : ∃ pending, Order job reply s order pending
  created : ∀ i, s.status (.worker i) ≠ .new ↔ 1 ≤ i ∧ i ≤ s.parent.created job
  exited : ∀ i, s.status (.worker i) = .exited → s.worker i = .returned
  joined : ∀ i, 1 ≤ i → i ≤ s.parent.joined job → s.status (.worker i) = .exited
  aborted : s.aborted = false
  parent : s.status .parent = .running ∨
    s.status .parent = .exited ∧ ∃ acc, s.parent = .finished acc

end Invariant

end Team

end OperatingSystems
