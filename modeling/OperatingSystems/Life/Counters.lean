import Mathlib.Algebra.BigOperators.Group.Finset.Basic
import Mathlib.Algebra.Order.BigOperators.Group.Finset
import Mathlib.Order.Interval.Finset.Nat
import Mathlib.Tactic.Ring
import OperatingSystems.Life.View

/-!
# Message counts of the control points

How many messages a thread has sent or received is told by where it is. For
`main`, `sentTo` counts the messages to worker `i`, `goSentTo` those of them
that are GO, and `collected` the messages taken out of mailbox 0. For a worker,
`recvd` counts the messages taken out of its mailbox, `goRecvd` the GO among
them, and `sent` the messages to `main`; `counted`, `critical` and `passed`
place it relative to the barrier. `MainOk` and `WorkerOk` bound the local
variables. Each kind of instruction has one lemma that says what it does to all
of these.
-/

namespace OperatingSystems

namespace Life

open OperatingSystems.Thread OperatingSystems.Mailbox

namespace MainLoc

/-- The messages that `main` has sent to worker `i`. -/
def sentTo : MainLoc → ℕ → ℕ
  | .create _, _ => 0
  | .sendRange k, i => if i ≤ k then 1 else 0
  | .sendGo cGen _ k, i => cGen + 1 + if i < k then 1 else 0
  | .collect cGen _ _, _ => cGen + 2
  | .isAllZero cGen _ _ _ _, _ => cGen + 1
  | .hasNotChanged cGen _ _ _ _, _ => cGen + 1
  | .updateMatrix cGen _ _ _, _ => cGen + 1
  | .sendStop cGen _ k, i => cGen + 1 + if i < k then 1 else 0
  | .print cGen _ _ _, _ => cGen + 2
  | .join cGen _ _, _ => cGen + 2
  | .finished cGen _, _ => cGen + 2

/-- The GO messages that `main` has sent to worker `i`. -/
def goSentTo : MainLoc → ℕ → ℕ
  | .create _, _ => 0
  | .sendRange _, _ => 0
  | .sendGo cGen _ k, i => cGen + if i < k then 1 else 0
  | .collect cGen _ _, _ => cGen + 1
  | .isAllZero cGen _ _ _ _, _ => cGen
  | .hasNotChanged cGen _ _ _ _, _ => cGen
  | .updateMatrix cGen _ _ _, _ => cGen
  | .sendStop cGen _ _, _ => cGen
  | .print cGen allDoneCounter _ _, _ => cGen + if allDoneCounter = 0 then 0 else 1
  | .join cGen allDoneCounter _, _ => cGen + if allDoneCounter = 0 then 0 else 1
  | .finished cGen allDoneCounter, _ => cGen + if allDoneCounter = 0 then 0 else 1

/-- The generations that `main` has collected completely. -/
def rounds : MainLoc → ℕ
  | .create _ => 0
  | .sendRange _ => 0
  | .sendGo cGen _ _ => cGen
  | .collect cGen _ _ => cGen
  | .isAllZero cGen _ _ _ _ => cGen
  | .hasNotChanged cGen _ _ _ _ => cGen
  | .updateMatrix cGen _ _ _ => cGen
  | .sendStop cGen _ _ => cGen
  | .print cGen _ _ _ => cGen
  | .join cGen _ _ => cGen
  | .finished cGen _ => cGen

/-- The messages that `main` has collected beyond its complete rounds. -/
def extra : MainLoc → ℕ
  | .collect _ _ i => i - 1
  | .print _ allDoneCounter _ _ => allDoneCounter
  | .join _ allDoneCounter _ => allDoneCounter
  | .finished _ allDoneCounter => allDoneCounter
  | _ => 0

/-- The messages that `main` has taken out of mailbox 0. -/
def collected (g : Game) (l : MainLoc) : ℕ :=
  l.rounds * g.numberOfThreads + l.extra

end MainLoc

namespace WorkerLoc

/-- The local variables, once the RANGE message has set them. -/
def vars? : WorkerLoc → Option WorkerVars
  | .recvRange => none
  | .recvGo v => some v
  | .row v _ _ => some v
  | .neighbor v _ _ _ _ => some v
  | .sendGenDone v => some v
  | .lockCount v => some v
  | .incrementCount v => some v
  | .unlockCount v => some v
  | .testCount v => some v
  | .postAll v _ => some v
  | .waitAll v => some v
  | .sendAllDone v => some v
  | .returned v => some v
  | .stopped v => some v
  | .wrongMessage => none

/-- A worker that is computing generation `gen`. -/
def computing : WorkerLoc → ℕ
  | .row _ _ _ => 1
  | .neighbor _ _ _ _ _ => 1
  | .sendGenDone _ => 1
  | _ => 0

/-- The generation a worker is in, and 1 past the last one after its loop. -/
def gen (l : WorkerLoc) : ℕ :=
  match l.vars? with
  | none => 1
  | some v => v.gen

/-- A worker that has stopped on a STOP message. -/
def halted : WorkerLoc → ℕ
  | .stopped _ => 1
  | _ => 0

/-- A worker whose ALLDONE message has been sent. -/
def ended : WorkerLoc → ℕ
  | .returned _ => 1
  | _ => 0

/-- The messages that a worker has received. -/
def recvd (l : WorkerLoc) : ℕ :=
  match l.vars? with
  | none => 0
  | some v => v.gen + l.computing + l.halted

/-- The GO messages that a worker has received. -/
def goRecvd (l : WorkerLoc) : ℕ := l.gen - 1 + l.computing

/-- The messages that a worker has sent to `main`. -/
def sent (l : WorkerLoc) : ℕ := l.gen - 1 + l.ended

/-- A worker that has added itself to `barrierCount`. -/
def counted : WorkerLoc → ℕ
  | .unlockCount _ => 1
  | .testCount _ => 1
  | .postAll _ _ => 1
  | .waitAll _ => 1
  | .sendAllDone _ => 1
  | .returned _ => 1
  | _ => 0

/-- A worker between the wait and the post on `gendone_sem`. -/
def critical : WorkerLoc → ℕ
  | .incrementCount _ => 1
  | .unlockCount _ => 1
  | _ => 0

/-- A worker past its wait on `alldone_sem`. -/
def passed : WorkerLoc → ℕ
  | .sendAllDone _ => 1
  | .returned _ => 1
  | _ => 0

/-- A worker in the loop that posts `alldone_sem`. -/
def posting : WorkerLoc → ℕ
  | .postAll _ _ => 1
  | _ => 0

/-- A worker past its generation loop. -/
def inBarrier : WorkerLoc → ℕ
  | .lockCount _ => 1
  | .incrementCount _ => 1
  | l => l.counted

end WorkerLoc

section Ok

variable (g : Game)

/-- The local variables of `main`. -/
def MainOk : MainLoc → Prop
  | .create i => 1 ≤ i ∧ i ≤ g.numberOfThreads + 1
  | .sendRange i => i < g.numberOfThreads
  | .sendGo cGen allDoneCounter i =>
      cGen ≤ g.numberOfGenerations ∧ allDoneCounter = 0 ∧ 1 ≤ i ∧ i ≤ g.numberOfThreads + 1
  | .collect cGen allDoneCounter i =>
      cGen ≤ g.numberOfGenerations ∧ 1 ≤ i ∧ i ≤ g.numberOfThreads + 1 ∧
        allDoneCounter = if cGen < g.numberOfGenerations then 0 else i - 1
  | .isAllZero cGen allDoneCounter _ _ _ =>
      1 ≤ cGen ∧ cGen ≤ g.numberOfGenerations ∧ allDoneCounter = 0
  | .hasNotChanged cGen allDoneCounter _ _ _ =>
      1 ≤ cGen ∧ cGen ≤ g.numberOfGenerations ∧ allDoneCounter = 0
  | .updateMatrix cGen allDoneCounter _ _ =>
      1 ≤ cGen ∧ cGen ≤ g.numberOfGenerations ∧ allDoneCounter = 0
  | .sendStop cGen allDoneCounter i =>
      1 ≤ cGen ∧ cGen ≤ g.numberOfGenerations ∧ allDoneCounter = 0 ∧ 1 ≤ i ∧
        i ≤ g.numberOfThreads + 1
  | .print cGen allDoneCounter _ _ =>
      1 ≤ cGen ∧ cGen ≤ g.numberOfGenerations ∧
        (allDoneCounter = 0 ∨ allDoneCounter = g.numberOfThreads ∧ cGen = g.numberOfGenerations)
  | .join cGen allDoneCounter i =>
      1 ≤ cGen ∧ cGen ≤ g.numberOfGenerations ∧
        (allDoneCounter = 0 ∨ allDoneCounter = g.numberOfThreads ∧
          cGen = g.numberOfGenerations) ∧ 1 ≤ i ∧ i ≤ g.numberOfThreads + 1
  | .finished cGen allDoneCounter =>
      1 ≤ cGen ∧ cGen ≤ g.numberOfGenerations ∧
        (allDoneCounter = 0 ∨ allDoneCounter = g.numberOfThreads ∧ cGen = g.numberOfGenerations)

/-- The lines and the generation of a worker's local variables. -/
structure VarsOk (i : ℕ) (v : WorkerVars) : Prop where
  lineFrom : v.lineFrom = (g.rangeMsg (i - 1)).value1
  lineTo : v.lineTo = (g.rangeMsg (i - 1)).value2
  one_le : 1 ≤ v.gen

/-- The local variables of worker `i`. -/
structure WorkerOk (i : ℕ) (l : WorkerLoc) : Prop where
  vars : ∀ v, l.vars? = some v → VarsOk g i v
  inLoop : l.inBarrier = 0 → l.gen ≤ g.numberOfGenerations
  pastLoop : l.inBarrier = 1 → l.gen = g.numberOfGenerations + 1
  genDone : ∀ v, l = .sendGenDone v → v.message.type = .genDone
  allDone : ∀ v, l = .sendAllDone v → v.message.type = .allDone
  right : l ≠ .wrongMessage

end Ok

end Life

end OperatingSystems
