import OperatingSystems.Thread.Received

/-!
# A parent and its workers

A parent creates a number of workers, sends each of them one request through the
worker's mailbox, and gathers one reply for each. A worker receives its request,
computes a reply or fails, sends the reply and ends. There are two ways to gather
the replies. In the first the replies come back through the workers' own
mailboxes, and the parent joins all workers before it takes the replies out in
the order of the workers. In the second all replies come through mailbox 0, and
the parent joins the workers at the end.

`View` lists the parts of an atomic state, and `ParentMove` and `WorkerMove` say
what a step can do at each control point.
-/

namespace OperatingSystems

namespace Team

open OperatingSystems.Thread

/-- The requests, the work and the use of the replies; `own` says which of the two
ways the replies come back. -/
structure Job (Msg Acc : Type) where
  size : ℕ
  one_le_size : 1 ≤ size
  request : ℕ → Msg
  work : Msg → Option Msg
  own : Bool
  absorb : Acc → Msg → Acc
  start : Acc

/-- The threads. -/
inductive Member where
  | parent
  | worker (i : ℕ)
  deriving DecidableEq, Repr

/-- Where the parent is. -/
inductive ParentLoc (Acc : Type) where
  | create (i : ℕ)
  | send (i : ℕ)
  | joinFirst (i : ℕ)
  | gather (i : ℕ) (acc : Acc)
  | report (acc : Acc)
  | joinLast (i : ℕ) (acc : Acc)
  | finished (acc : Acc)
  deriving DecidableEq, Repr

/-- Where a worker is. -/
inductive WorkerLoc (Msg : Type) where
  | receive
  | compute (request : Msg)
  | reply (message : Msg)
  | returned
  | failed
  deriving DecidableEq, Repr

section Code

variable {Msg Acc : Type} (job : Job Msg Acc)

/-- The mailbox of the reply of worker `i`. -/
def Job.replyBox (i : ℕ) : ℕ := if job.own then i else 0

/-- The loop over the creations. -/
def Job.forCreate (i : ℕ) : ParentLoc Acc :=
  if i ≤ job.size then .create i else .send 1

/-- The loop over the requests. -/
def Job.forSend (i : ℕ) : ParentLoc Acc :=
  if i ≤ job.size then .send i
  else if job.own then .joinFirst 1 else .gather 1 job.start

def Job.forJoinFirst (i : ℕ) : ParentLoc Acc :=
  if i ≤ job.size then .joinFirst i else .gather 1 job.start

/-- The loop over the replies. -/
def Job.forGather (i : ℕ) (acc : Acc) : ParentLoc Acc :=
  if i ≤ job.size then .gather i acc else .report acc

def Job.afterReport (acc : Acc) : ParentLoc Acc :=
  if job.own then .finished acc else .joinLast 1 acc

def Job.forJoinLast (i : ℕ) (acc : Acc) : ParentLoc Acc :=
  if i ≤ job.size then .joinLast i acc else .finished acc

/-- The parent. -/
def Job.parentCode : ParentLoc Acc → Instr Member ℕ Empty Msg Unit (ParentLoc Acc)
  | .create i => .create (.worker i) (job.forCreate (i + 1))
  | .send i => .send i (job.request i) (job.forSend (i + 1))
  | .joinFirst i => .join (.worker i) (job.forJoinFirst (i + 1))
  | .gather i acc =>
      .recv (job.replyBox i) fun message => job.forGather (i + 1) (job.absorb acc message)
  | .report acc => .access fun mem => (mem, job.afterReport acc)
  | .joinLast i acc => .join (.worker i) (job.forJoinLast (i + 1) acc)
  | .finished _ => .exit

/-- Worker `i`. -/
def Job.workerCode (i : ℕ) : WorkerLoc Msg → Instr Member ℕ Empty Msg Unit (WorkerLoc Msg)
  | .receive => .recv i .compute
  | .compute request =>
      .access fun mem =>
        (mem, match job.work request with
          | some message => .reply message
          | none => .failed)
  | .reply message => .send (job.replyBox i) message .returned
  | .returned => .exit
  | .failed => .abort

/-- The control points of each thread. -/
@[reducible] def Loc (Msg Acc : Type) : Member → Type
  | .parent => ParentLoc Acc
  | .worker _ => WorkerLoc Msg

/-- The program of all threads. -/
@[reducible] def Job.program : Program Member ℕ Empty Msg Unit where
  Loc := Loc Msg Acc
  code := fun t =>
    match t with
    | .parent => job.parentCode
    | .worker i => job.workerCode i

/-- Only the parent runs at first. -/
def Job.init (blank : Msg) : State job.program :=
  State.initial job.program
    (fun t => match t with
      | .parent => ParentLoc.create 1
      | .worker _ => WorkerLoc.receive)
    (fun t => if t = .parent then .running else .new)
    (fun q => q.elim) () blank

end Code

/-- The parts of an atomic state. -/
structure View (Msg Acc : Type) where
  parent : ParentLoc Acc
  worker : ℕ → WorkerLoc Msg
  box : ℕ → Option Msg
  status : Member → Status
  aborted : Bool

section Moves

variable {Msg Acc : Type} {job : Job Msg Acc}

def view (a : Atomic job.program) : View Msg Acc where
  parent := a.loc .parent
  worker := fun i => a.loc (.worker i)
  box := a.box
  status := a.status
  aborted := a.aborted

/-- The steps of the parent. -/
inductive ParentMove (job : Job Msg Acc) (s : View Msg Acc) : View Msg Acc → Prop
  | create (i : ℕ) : s.parent = .create i →
      ParentMove job s { s with
        parent := job.forCreate (i + 1)
        status := Function.update s.status (.worker i) .running }
  | send (i : ℕ) : s.parent = .send i → s.box i = none →
      ParentMove job s { s with
        parent := job.forSend (i + 1)
        box := Function.update s.box i (some (job.request i)) }
  | joinFirst (i : ℕ) : s.parent = .joinFirst i → s.status (.worker i) = .exited →
      ParentMove job s { s with parent := job.forJoinFirst (i + 1) }
  | gather (i : ℕ) (acc : Acc) (m : Msg) : s.parent = .gather i acc →
      s.box (job.replyBox i) = some m →
      ParentMove job s { s with
        parent := job.forGather (i + 1) (job.absorb acc m)
        box := Function.update s.box (job.replyBox i) none }
  | report (acc : Acc) : s.parent = .report acc →
      ParentMove job s { s with parent := job.afterReport acc }
  | joinLast (i : ℕ) (acc : Acc) : s.parent = .joinLast i acc →
      s.status (.worker i) = .exited →
      ParentMove job s { s with parent := job.forJoinLast (i + 1) acc }
  | exit (acc : Acc) : s.parent = .finished acc →
      ParentMove job s { s with status := Function.update s.status .parent .exited }

/-- The steps of worker `i`. -/
inductive WorkerMove (job : Job Msg Acc) (i : ℕ) (s : View Msg Acc) : View Msg Acc → Prop
  | receive (m : Msg) : s.worker i = .receive → s.box i = some m →
      WorkerMove job i s { s with
        worker := Function.update s.worker i (.compute m)
        box := Function.update s.box i none }
  | compute (m m' : Msg) : s.worker i = .compute m → job.work m = some m' →
      WorkerMove job i s { s with worker := Function.update s.worker i (.reply m') }
  | fail (m : Msg) : s.worker i = .compute m → job.work m = none →
      WorkerMove job i s { s with worker := Function.update s.worker i .failed }
  | reply (m : Msg) : s.worker i = .reply m → s.box (job.replyBox i) = none →
      WorkerMove job i s { s with
        worker := Function.update s.worker i .returned
        box := Function.update s.box (job.replyBox i) (some m) }
  | exit : s.worker i = .returned →
      WorkerMove job i s { s with status := Function.update s.status (.worker i) .exited }
  | abort : s.worker i = .failed → WorkerMove job i s { s with aborted := true }

/-- Every atomic step of the parent is one of its moves. -/
theorem parentMove_of_step {a a' : Atomic job.program} (h : AtomicMove a .parent a') :
    ParentMove job (view a) (view a') := by
  have hcode : job.program.code .parent (a.loc .parent) = job.parentCode (view a).parent := rfl
  cases h with
  | send b m l hi hb =>
      rw [hcode] at hi
      cases hl : (view a).parent with
      | send i =>
          rw [hl] at hi
          obtain ⟨rfl, rfl, rfl⟩ := Instr.send.inj hi
          have hm : ParentMove job (view a) _ := .send i hl hb
          convert hm using 1
          simp [view, Core.goto]
      | _ =>
          rw [hl] at hi
          contradiction
  | recv b l m hi hb =>
      rw [hcode] at hi
      cases hl : (view a).parent with
      | gather i acc =>
          rw [hl] at hi
          obtain ⟨rfl, rfl⟩ := Instr.recv.inj hi
          have hm : ParentMove job (view a) _ := .gather i acc m hl hb
          convert hm using 1
          simp [view, Core.goto]
      | _ =>
          rw [hl] at hi
          contradiction
  | core c hc =>
      rw [hcode] at hc
      cases hl : (view a).parent with
      | create i =>
          rw [hl] at hc
          obtain rfl := Option.some.inj hc
          have hm : ParentMove job (view a) _ := .create i hl
          convert hm using 1
          simp [view, Core.goto]
      | joinFirst i =>
          rw [hl] at hc
          simp only [Job.parentCode, Core.next] at hc
          split at hc
          · rename_i hu
            obtain rfl := Option.some.inj hc
            have hm : ParentMove job (view a) _ := .joinFirst i hl hu
            convert hm using 1
            simp [view, Core.goto]
          · contradiction
      | report acc =>
          rw [hl] at hc
          obtain rfl := Option.some.inj hc
          have hm : ParentMove job (view a) _ := .report acc hl
          convert hm using 1
          simp [view, Core.goto]
      | joinLast i acc =>
          rw [hl] at hc
          simp only [Job.parentCode, Core.next] at hc
          split at hc
          · rename_i hu
            obtain rfl := Option.some.inj hc
            have hm : ParentMove job (view a) _ := .joinLast i acc hl hu
            convert hm using 1
            simp [view, Core.goto]
          · contradiction
      | finished acc =>
          rw [hl] at hc
          obtain rfl := Option.some.inj hc
          exact .exit acc hl
      | _ =>
          rw [hl] at hc
          contradiction

/-- Every atomic step of a worker is one of its moves. -/
theorem workerMove_of_step {a a' : Atomic job.program} {i : ℕ}
    (h : AtomicMove a (.worker i) a') : WorkerMove job i (view a) (view a') := by
  have hcode : job.program.code (.worker i) (a.loc (.worker i)) =
    job.workerCode i ((view a).worker i) := rfl
  have hworker : ∀ (c : Core job.program) (l : WorkerLoc Msg),
      (fun j => (c.goto (.worker i) l).loc (.worker j)) =
        Function.update (fun j => c.loc (.worker j)) i l := by
    intro c l
    funext j
    by_cases hj : j = i
    · subst hj
      simp
    · simp [hj]
  cases h with
  | send b m l hi hb =>
      rw [hcode] at hi
      cases hl : (view a).worker i with
      | reply message =>
          rw [hl] at hi
          obtain ⟨rfl, rfl, rfl⟩ := Instr.send.inj hi
          have hm : WorkerMove job i (view a) _ := .reply message hl hb
          convert hm using 1
          simp [view, hworker]
      | _ =>
          rw [hl] at hi
          contradiction
  | recv b l m hi hb =>
      rw [hcode] at hi
      cases hl : (view a).worker i with
      | receive =>
          rw [hl] at hi
          obtain ⟨rfl, rfl⟩ := Instr.recv.inj hi
          have hm : WorkerMove job i (view a) _ := .receive m hl hb
          convert hm using 1
          simp [view, hworker]
      | _ =>
          rw [hl] at hi
          contradiction
  | core c hc =>
      rw [hcode] at hc
      cases hl : (view a).worker i with
      | compute m =>
          rw [hl] at hc
          obtain rfl := Option.some.inj hc
          cases hwork : job.work m with
          | none =>
              have hm : WorkerMove job i (view a) _ := .fail m hl hwork
              convert hm using 1
              simp [view, hworker]
          | some m' =>
              have hm : WorkerMove job i (view a) _ := .compute m m' hl hwork
              convert hm using 1
              simp [view, hworker]
      | returned =>
          rw [hl] at hc
          obtain rfl := Option.some.inj hc
          exact .exit hl
      | failed =>
          rw [hl] at hc
          obtain rfl := Option.some.inj hc
          exact .abort hl
      | _ =>
          rw [hl] at hc
          contradiction

/-- A step of the atomic machine is a move of the parent or of a worker. -/
theorem move_of_step {a a' : Atomic job.program} {t : Member} (h : atomicNext t a = some a') :
    (view a).status t = .running ∧
      match t with
      | .parent => ParentMove job (view a) (view a')
      | .worker i => WorkerMove job i (view a) (view a') := by
  obtain ⟨⟨-, hrun⟩, hm⟩ := atomicNext_eq_some_iff.mp h
  refine ⟨hrun, ?_⟩
  cases t with
  | parent => exact parentMove_of_step hm
  | worker i => exact workerMove_of_step hm

/-- In a deadlock the parent, if it still runs, waits. -/
theorem parentWaits_of_stuck {a : Atomic job.program} (h : Transition.Stuck atomicNext a)
    (haborted : (view a).aborted = false) (hrun : (view a).status .parent = .running) :
    (∃ i, (view a).parent = .send i ∧ (view a).box i ≠ none) ∨
      (∃ i acc, (view a).parent = .gather i acc ∧ (view a).box (job.replyBox i) = none) ∨
      ∃ i, ((view a).parent = .joinFirst i ∨ ∃ acc, (view a).parent = .joinLast i acc) ∧
        (view a).status (.worker i) ≠ .exited := by
  have ha : a.Active .parent := ⟨haborted, hrun⟩
  have hcode : job.program.code .parent (a.loc .parent) = job.parentCode (view a).parent := rfl
  have hnone := h .parent
  unfold atomicNext at hnone
  rw [if_pos ha, hcode] at hnone
  cases hl : (view a).parent with
  | send i =>
      rw [hl] at hnone
      refine .inl ⟨i, rfl, fun hb => ?_⟩
      have hbox : a.box i = none := hb
      simp only [Job.parentCode, hbox] at hnone
      contradiction
  | gather i acc =>
      rw [hl] at hnone
      refine .inr (.inl ⟨i, acc, rfl, ?_⟩)
      change a.box (job.replyBox i) = none
      cases hb : a.box (job.replyBox i) with
      | none => rfl
      | some m =>
          simp only [Job.parentCode, hb] at hnone
          contradiction
  | joinFirst i =>
      rw [hl] at hnone
      refine .inr (.inr ⟨i, .inl rfl, fun hu => ?_⟩)
      have hexited : a.status (.worker i) = .exited := hu
      simp [Job.parentCode, Core.next, hexited] at hnone
  | joinLast i acc =>
      rw [hl] at hnone
      refine .inr (.inr ⟨i, .inr ⟨acc, rfl⟩, fun hu => ?_⟩)
      have hexited : a.status (.worker i) = .exited := hu
      simp [Job.parentCode, Core.next, hexited] at hnone
  | _ =>
      rw [hl] at hnone
      contradiction

/-- In a deadlock a worker that still runs waits. -/
theorem workerWaits_of_stuck {a : Atomic job.program} {i : ℕ}
    (h : Transition.Stuck atomicNext a) (haborted : (view a).aborted = false)
    (hrun : (view a).status (.worker i) = .running) :
    ((view a).worker i = .receive ∧ (view a).box i = none) ∨
      ∃ m, (view a).worker i = .reply m ∧ (view a).box (job.replyBox i) ≠ none := by
  have ha : a.Active (.worker i) := ⟨haborted, hrun⟩
  have hcode : job.program.code (.worker i) (a.loc (.worker i)) =
    job.workerCode i ((view a).worker i) := rfl
  have hnone := h (.worker i)
  unfold atomicNext at hnone
  rw [if_pos ha, hcode] at hnone
  cases hl : (view a).worker i with
  | receive =>
      rw [hl] at hnone
      refine .inl ⟨rfl, ?_⟩
      change a.box i = none
      cases hb : a.box i with
      | none => rfl
      | some m =>
          simp only [Job.workerCode, hb] at hnone
          contradiction
  | reply m =>
      rw [hl] at hnone
      refine .inr ⟨m, rfl, fun hb => ?_⟩
      have hbox : a.box (job.replyBox i) = none := hb
      simp only [Job.workerCode, hbox] at hnone
      contradiction
  | _ =>
      rw [hl] at hnone
      contradiction

end Moves

end Team

end OperatingSystems
