import Mathlib.Data.Fin.VecNotation
import OperatingSystems.Thread.Exclusion

/-!
# The mailbox protocol of sendMsg and recvMsg

The programs addem, life and proj4 exchange all their messages through the same
two functions. `sendMsg(iTo, message)` is `sem_wait(&sem_s[iTo])`, a `memcpy`
into `mailboxes[iTo]` and `sem_post(&sem_r[iTo])`; `recvMsg(iFrom, message)` is
`sem_wait(&sem_r[iFrom])`, a `memcpy` out of the mailbox and
`sem_post(&sem_s[iFrom])`. Here any finite number of threads make any sequences
of such calls on one mailbox.
-/

namespace OperatingSystems

namespace Mailbox

open OperatingSystems.Thread

/-- `sendMsg` as a thread's next instruction. -/
abbrev sendMsg {Tid Box Sem Msg Mem Loc : Type} (iTo : Box) (message : Msg) (l : Loc) :
    Instr Tid Box Sem Msg Mem Loc :=
  .send iTo message l

/-- `recvMsg` as a thread's next instruction. -/
abbrev recvMsg {Tid Box Sem Msg Mem Loc : Type} (iFrom : Box) (l : Msg → Loc) :
    Instr Tid Box Sem Msg Mem Loc :=
  .recv iFrom l

section Semaphores

variable {Tid Box Sem Msg Mem : Type} {P : Program Tid Box Sem Msg Mem}

/-- The value of the semaphore that guards sending. -/
abbrev sem_s (s : State P) : Box → ℕ := s.free

/-- The value of the semaphore that guards receiving. -/
abbrev sem_r (s : State P) : Box → ℕ := s.ready

abbrev mailboxes (s : State P) : Box → Msg := s.slot

/-- Thread `t` is past the `sem_wait` of a call and has not done its `sem_post`. -/
def Between (s : State P) (t : Tid) : Prop := s.phase t ≠ .entry

end Semaphores

/-- A call on the mailbox. -/
inductive Call (Msg : Type) where
  | sendMsg (message : Msg)
  | recvMsg

/-- Threads that make the calls they are given, in order, on one mailbox. -/
@[reducible] def callers (n : ℕ) (Msg : Type) : Program (Fin n) Unit Empty Msg Unit where
  Loc := fun _ => List (Call Msg)
  code := fun _ calls =>
    match calls with
    | [] => .exit
    | .sendMsg message :: rest => sendMsg () message rest
    | .recvMsg :: rest => recvMsg () fun _ => rest

/-- The mailbox as `main` sets it up, `sem_s` at one and `sem_r` at zero. -/
def start {n : ℕ} {Msg : Type} (blank : Msg) (calls : Fin n → List (Call Msg)) :
    State (callers n Msg) :=
  State.initial (callers n Msg) calls (fun _ => .running) (fun _ => 0) () blank

variable {n : ℕ} {Msg : Type}

theorem exclusive_of_reachable {blank : Msg} {calls : Fin n → List (Call Msg)}
    {s : State (callers n Msg)} (hs : Transition.Reachable next (start blank calls) s) :
    Exclusive s :=
  (exclusive_initial (callers n Msg) calls _ _ () blank).of_reachable hs

/-- A thread in the middle of a call is inside the one mailbox. -/
theorem held_of_between {s : State (callers n Msg)} (hs : Exclusive s) {t : Fin n}
    (ht : Between s t) : held s t = some () := by
  obtain ⟨b, hb⟩ := Option.ne_none_iff_exists'.mp (hs.inside t ht).2
  exact hb

/-- At most one thread is in the middle of a call, the two semaphores are never
both up and never above one, and the messages received are the messages
deposited, in the order of their deposits, up to at most one message that is
still in the slot. -/
theorem mailbox_protocol {blank : Msg} {calls : Fin n → List (Call Msg)}
    {s : State (callers n Msg)} (hs : Transition.Reachable next (start blank calls) s) :
    (∀ t u, Between s t → Between s u → t = u) ∧
      (sem_s s () ≤ 1 ∧ sem_r s () ≤ 1 ∧ ¬ (0 < sem_s s () ∧ 0 < sem_r s ())) ∧
      s.returned () <+: s.deposited () ∧
      (s.deposited ()).length ≤ (s.returned ()).length + 1 := by
  have hexcl := exclusive_of_reachable hs
  have hbox := hexcl.box ()
  refine ⟨?_, ?_, hbox.returned_prefix⟩
  · intro t u ht hu
    exact hbox.held_unique (held_of_between hexcl ht) (held_of_between hexcl hu)
  · have hle := hbox.free_add_ready_le
    refine ⟨?_, ?_, ?_⟩
    · exact le_trans (Nat.le_add_right _ _) hle
    · exact le_trans (Nat.le_add_left _ _) hle
    · rintro ⟨hfree, hready⟩
      have : 1 + 1 ≤ s.free () + s.ready () := Nat.add_le_add hfree hready
      omega

/-- Two senders and a receiver. -/
def handover : Fin 3 → List (Call ℕ) :=
  ![[.sendMsg 7], [.sendMsg 8], [.recvMsg, .recvMsg]]

/-- The protocol after the first message has been handed over and the second
has been copied into the slot. -/
theorem mailbox_protocol_handover :
    ∃ s, Transition.run next [0, 0, 0, 2, 2, 2, 1, 1] (start 0 handover) = some s ∧
      s.deposited () = [7, 8] ∧ s.returned () = [7] ∧
      s.returned () <+: s.deposited () := by
  have hrun : Transition.run next [0, 0, 0, 2, 2, 2, 1, 1] (start 0 handover) = some _ := rfl
  exact ⟨_, hrun, rfl, rfl, (mailbox_protocol (Transition.Reachable.of_run _
    Relation.ReflTransGen.refl hrun)).2.2.1⟩

end Mailbox

end OperatingSystems
