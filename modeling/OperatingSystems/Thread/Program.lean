import Mathlib.Data.Nat.Basic
import Mathlib.Logic.Function.Basic
import OperatingSystems.Transition.Reachable

/-!
# Threads that share memory, semaphores and one-slot mailboxes

A program gives every thread a type of control points and, at each control
point, the instruction the thread runs next. Counting semaphores block exactly
at zero and a join blocks until the joined thread has ended. A mailbox is one
slot guarded by two semaphores: `free` counts the empty slot and starts at one,
`ready` counts the filled slot and starts at zero. Sending waits on `free`,
copies the message into the slot and posts `ready`; receiving waits on `ready`,
copies the message out of the slot and posts `free`. Each of these three parts
is a step of its own, so other threads may run between them.

`deposited` and `returned` record, for each mailbox, the messages copied in and
the messages whose receive has completed. No instruction reads them.
-/

namespace OperatingSystems

namespace Thread

/-- The life of a thread. -/
inductive Status where
  | new
  | running
  | exited
  deriving DecidableEq, Repr

/-- How far a thread is inside a mailbox operation: not past its first wait,
past it, or past the copy as well. -/
inductive Phase (Msg : Type) where
  | entry
  | inside
  | copied (m : Msg)
  deriving DecidableEq, Repr

/-- What a thread does next; `l` is the control point it goes on to. -/
inductive Instr (Tid Box Sem Msg Mem Loc : Type) where
  | send (b : Box) (m : Msg) (l : Loc)
  | recv (b : Box) (l : Msg → Loc)
  | wait (q : Sem) (l : Loc)
  | post (q : Sem) (l : Loc)
  | access (f : Mem → Mem × Loc)
  | create (u : Tid) (l : Loc)
  | join (u : Tid) (l : Loc)
  | exit
  | abort

/-- The mailbox an instruction works on. -/
def Instr.box? {Tid Box Sem Msg Mem Loc : Type} :
    Instr Tid Box Sem Msg Mem Loc → Option Box
  | .send b _ _ => some b
  | .recv b _ => some b
  | _ => none

/-- The control points of every thread, and the instruction at each of them. -/
structure Program (Tid Box Sem Msg Mem : Type) where
  Loc : Tid → Type
  code : ∀ t, Loc t → Instr Tid Box Sem Msg Mem (Loc t)

variable {Tid Box Sem Msg Mem : Type}

/-- The part of a state that does not depend on how mailboxes work. -/
@[ext] structure Core (P : Program Tid Box Sem Msg Mem) where
  loc : ∀ t, P.Loc t
  status : Tid → Status
  aborted : Bool
  sem : Sem → ℕ
  mem : Mem

/-- A thread that may take a step. -/
def Core.Active {P : Program Tid Box Sem Msg Mem} (c : Core P) (t : Tid) : Prop :=
  c.aborted = false ∧ c.status t = .running

instance {P : Program Tid Box Sem Msg Mem} (c : Core P) (t : Tid) :
    Decidable (c.Active t) :=
  inferInstanceAs (Decidable (_ ∧ _))

section CoreStep

variable [DecidableEq Tid] {P : Program Tid Box Sem Msg Mem}

/-- Thread `t` moves on to the control point `l`. -/
def Core.goto (c : Core P) (t : Tid) (l : P.Loc t) : Core P :=
  { c with loc := Function.update c.loc t l }

@[simp] theorem Core.goto_loc_self (c : Core P) (t : Tid) (l : P.Loc t) :
    (c.goto t l).loc t = l := by
  simp [Core.goto]

@[simp] theorem Core.goto_loc_of_ne (c : Core P) {t u : Tid} (l : P.Loc t)
    (h : u ≠ t) : (c.goto t l).loc u = c.loc u := by
  simp [Core.goto, h]

@[simp] theorem Core.goto_status (c : Core P) (t : Tid) (l : P.Loc t) :
    (c.goto t l).status = c.status := rfl

@[simp] theorem Core.goto_aborted (c : Core P) (t : Tid) (l : P.Loc t) :
    (c.goto t l).aborted = c.aborted := rfl

@[simp] theorem Core.goto_sem (c : Core P) (t : Tid) (l : P.Loc t) :
    (c.goto t l).sem = c.sem := rfl

@[simp] theorem Core.goto_mem (c : Core P) (t : Tid) (l : P.Loc t) :
    (c.goto t l).mem = c.mem := rfl

variable [DecidableEq Sem]

/-- The step of an instruction that touches no mailbox. -/
def Core.next (c : Core P) (t : Tid) :
    Instr Tid Box Sem Msg Mem (P.Loc t) → Option (Core P)
  | .wait q l =>
      if c.sem q = 0 then none
      else some { c.goto t l with sem := Function.update c.sem q (c.sem q - 1) }
  | .post q l =>
      some { c.goto t l with sem := Function.update c.sem q (c.sem q + 1) }
  | .access f => some { c.goto t (f c.mem).2 with mem := (f c.mem).1 }
  | .create u l =>
      some { c.goto t l with status := Function.update c.status u .running }
  | .join u l => if c.status u = .exited then some (c.goto t l) else none
  | .exit => some { c with status := Function.update c.status t .exited }
  | .abort => some { c with aborted := true }
  | .send _ _ _ | .recv _ _ => none

/-- A step off the mailboxes leaves the control points of the other threads
alone. -/
theorem Core.next_loc_of_ne {c c' : Core P} {t u : Tid}
    {i : Instr Tid Box Sem Msg Mem (P.Loc t)} (h : c.next t i = some c')
    (hu : u ≠ t) : c'.loc u = c.loc u := by
  cases i <;> simp only [Core.next] at h
  all_goals first | contradiction | skip
  all_goals try split at h
  all_goals first | contradiction | skip
  all_goals
    obtain rfl := Option.some.inj h
    simp [Core.goto, hu]

/-- A step off the mailboxes ends no other thread. -/
theorem Core.next_status_of_ne {c c' : Core P} {t u : Tid}
    {i : Instr Tid Box Sem Msg Mem (P.Loc t)} (h : c.next t i = some c')
    (hu : u ≠ t) (hr : c.status u = .running) : c'.status u = .running := by
  cases i <;> simp only [Core.next] at h
  all_goals first | contradiction | skip
  all_goals try split at h
  all_goals first | contradiction | skip
  all_goals
    obtain rfl := Option.some.inj h
    simp [Core.goto, Function.update_apply, hu, hr]

/-- An instruction with a step off the mailboxes works on no mailbox. -/
theorem Core.box?_of_next {c c' : Core P} {t : Tid}
    {i : Instr Tid Box Sem Msg Mem (P.Loc t)} (h : c.next t i = some c') :
    i.box? = none := by
  cases i <;> simp [Core.next] at h ⊢ <;> rfl

end CoreStep

/-- A state of the machine whose mailboxes are slots guarded by semaphores. -/
structure State (P : Program Tid Box Sem Msg Mem) extends Core P where
  phase : Tid → Phase Msg
  free : Box → ℕ
  ready : Box → ℕ
  slot : Box → Msg
  deposited : Box → List Msg
  returned : Box → List Msg

section Machine

variable [DecidableEq Tid] [DecidableEq Box] [DecidableEq Sem]
variable {P : Program Tid Box Sem Msg Mem}

/-- The state with every mailbox empty, in which only the threads of `live`
run. -/
def State.initial (P : Program Tid Box Sem Msg Mem) (loc : ∀ t, P.Loc t)
    (status : Tid → Status) (sem : Sem → ℕ) (mem : Mem) (blank : Msg) : State P where
  loc := loc
  status := status
  aborted := false
  sem := sem
  mem := mem
  phase := fun _ => .entry
  free := fun _ => 1
  ready := fun _ => 0
  slot := fun _ => blank
  deposited := fun _ => []
  returned := fun _ => []

/-- The next part of the mailbox operation or the instruction that thread `t`
has reached. -/
def next (t : Tid) (s : State P) : Option (State P) :=
  if s.Active t then
    match P.code t (s.loc t), s.phase t with
    | .send b _ _, .entry =>
        if s.free b = 0 then none
        else some { s with
          free := Function.update s.free b (s.free b - 1)
          phase := Function.update s.phase t .inside }
    | .send b m _, .inside =>
        some { s with
          slot := Function.update s.slot b m
          deposited := Function.update s.deposited b (s.deposited b ++ [m])
          phase := Function.update s.phase t (.copied m) }
    | .send b _ l, .copied _ =>
        some { s with
          toCore := s.toCore.goto t l
          ready := Function.update s.ready b (s.ready b + 1)
          phase := Function.update s.phase t .entry }
    | .recv b _, .entry =>
        if s.ready b = 0 then none
        else some { s with
          ready := Function.update s.ready b (s.ready b - 1)
          phase := Function.update s.phase t .inside }
    | .recv b _, .inside =>
        some { s with phase := Function.update s.phase t (.copied (s.slot b)) }
    | .recv b l, .copied m =>
        some { s with
          toCore := s.toCore.goto t (l m)
          free := Function.update s.free b (s.free b + 1)
          returned := Function.update s.returned b (s.returned b ++ [m])
          phase := Function.update s.phase t .entry }
    | i, _ => (s.toCore.next t i).map fun c => { s with toCore := c }
  else none

/-- The steps of thread `t`, one constructor for each part of a mailbox
operation and one for all other instructions. -/
inductive Move (s : State P) (t : Tid) : State P → Prop
  | sendWait (b : Box) (m : Msg) (l : P.Loc t) :
      P.code t (s.loc t) = .send b m l → s.phase t = .entry → s.free b ≠ 0 →
      Move s t { s with
        free := Function.update s.free b (s.free b - 1)
        phase := Function.update s.phase t .inside }
  | sendCopy (b : Box) (m : Msg) (l : P.Loc t) :
      P.code t (s.loc t) = .send b m l → s.phase t = .inside →
      Move s t { s with
        slot := Function.update s.slot b m
        deposited := Function.update s.deposited b (s.deposited b ++ [m])
        phase := Function.update s.phase t (.copied m) }
  | sendPost (b : Box) (m m' : Msg) (l : P.Loc t) :
      P.code t (s.loc t) = .send b m l → s.phase t = .copied m' →
      Move s t { s with
        toCore := s.toCore.goto t l
        ready := Function.update s.ready b (s.ready b + 1)
        phase := Function.update s.phase t .entry }
  | recvWait (b : Box) (l : Msg → P.Loc t) :
      P.code t (s.loc t) = .recv b l → s.phase t = .entry → s.ready b ≠ 0 →
      Move s t { s with
        ready := Function.update s.ready b (s.ready b - 1)
        phase := Function.update s.phase t .inside }
  | recvCopy (b : Box) (l : Msg → P.Loc t) :
      P.code t (s.loc t) = .recv b l → s.phase t = .inside →
      Move s t { s with phase := Function.update s.phase t (.copied (s.slot b)) }
  | recvPost (b : Box) (l : Msg → P.Loc t) (m : Msg) :
      P.code t (s.loc t) = .recv b l → s.phase t = .copied m →
      Move s t { s with
        toCore := s.toCore.goto t (l m)
        free := Function.update s.free b (s.free b + 1)
        returned := Function.update s.returned b (s.returned b ++ [m])
        phase := Function.update s.phase t .entry }
  | core (c : Core P) :
      s.toCore.next t (P.code t (s.loc t)) = some c → Move s t { s with toCore := c }

theorem next_eq_none_of_not_active {t : Tid} {s : State P} (h : ¬ s.Active t) :
    next t s = none := by
  simp [next, h]

theorem next_core {t : Tid} {s : State P} (ha : s.Active t)
    (hbox : (P.code t (s.loc t)).box? = none) :
    next t s =
      (s.toCore.next t (P.code t (s.loc t))).map fun c => { s with toCore := c } := by
  unfold next
  rw [if_pos ha]
  cases hi : P.code t (s.loc t) <;> simp_all [Instr.box?]

/-- The steps of `next` are the moves of active threads. -/
theorem next_eq_some_iff {t : Tid} {s s' : State P} :
    next t s = some s' ↔ s.Active t ∧ Move s t s' := by
  constructor
  · intro h
    by_cases ha : s.Active t
    · refine ⟨ha, ?_⟩
      unfold next at h
      rw [if_pos ha] at h
      cases hi : P.code t (s.loc t) with
      | send b m l =>
          cases hp : s.phase t with
          | entry =>
              simp only [hi, hp] at h
              split at h
              · contradiction
              · rename_i hfree
                exact Option.some.inj h ▸ Move.sendWait b m l hi hp hfree
          | inside =>
              simp only [hi, hp] at h
              exact Option.some.inj h ▸ Move.sendCopy b m l hi hp
          | copied m' =>
              simp only [hi, hp] at h
              exact Option.some.inj h ▸ Move.sendPost b m m' l hi hp
      | recv b l =>
          cases hp : s.phase t with
          | entry =>
              simp only [hi, hp] at h
              split at h
              · contradiction
              · rename_i hready
                exact Option.some.inj h ▸ Move.recvWait b l hi hp hready
          | inside =>
              simp only [hi, hp] at h
              exact Option.some.inj h ▸ Move.recvCopy b l hi hp
          | copied m =>
              simp only [hi, hp] at h
              exact Option.some.inj h ▸ Move.recvPost b l m hi hp
      | _ =>
          simp only [hi, Option.map_eq_some_iff] at h
          obtain ⟨c, hc, rfl⟩ := h
          exact Move.core c (by rw [hi]; exact hc)
    · rw [next_eq_none_of_not_active ha] at h
      contradiction
  · rintro ⟨ha, hm⟩
    cases hm with
    | sendWait b m l hi hp hfree => simp [next, ha, hi, hp, hfree]
    | sendCopy b m l hi hp => simp [next, ha, hi, hp]
    | sendPost b m m' l hi hp => simp [next, ha, hi, hp]
    | recvWait b l hi hp hready => simp [next, ha, hi, hp, hready]
    | recvCopy b l hi hp => simp [next, ha, hi, hp]
    | recvPost b l m hi hp => simp [next, ha, hi, hp]
    | core c hc => rw [next_core ha (Core.box?_of_next hc), hc, Option.map_some]

end Machine

end Thread

end OperatingSystems
