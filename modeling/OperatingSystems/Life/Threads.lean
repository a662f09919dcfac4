import OperatingSystems.Life.Board
import OperatingSystems.Mailbox.Protocol

/-!
# The threads of life

`main` creates the workers, sends each of them its rows, and then plays one
round for every generation: it sends GO to all, collects one message from each,
and stops early when the new generation is all zero or the same as the one
before. A worker computes its rows after each GO and answers GENDONE; after its
last generation it passes the barrier and answers ALLDONE. Mailbox 0 is the
parent's, mailbox `i` that of worker `i`.

A control point carries the local variables that are still read after it. Every
cell that `main` scans, copies or prints is a step of its own, and so is each of
the eight reads of a neighbor count, so `main` and the workers interleave at
every access to the two arrays. On boards of 40 rows, and of 39 rows of 40
columns, a neighbor test reads past `before` and finds cells of `after`. The
fields of a GO or STOP message that `main` does not set hold whatever `uninit`
says.
-/

namespace OperatingSystems

namespace Life

open OperatingSystems.Thread OperatingSystems.Mailbox

inductive MsgType where
  | range
  | allDone
  | go
  | genDone
  | stop
  deriving DecidableEq, Repr

structure Msg where
  iFrom : ℤ
  type : MsgType
  value1 : ℤ
  value2 : ℤ
  deriving DecidableEq, Repr

/-- The threads: the parent and the workers, by their `threadID`. -/
inductive ThreadId where
  | main
  | worker (threadID : ℕ)
  deriving DecidableEq, Repr

/-- The semaphores of the barrier. -/
inductive BarrierSem where
  | genDoneSem
  | allDoneSem
  deriving DecidableEq, Repr

/-- The global variables that the threads share, and what `main` has printed of
the last grid. -/
structure Memory where
  before : Grid
  after : Grid
  barrierCount : ℕ
  printed : List ℤ

/-- The memory from the first cell of `before` on. `after` lies right behind `before`, so
that `before[40][column]` is `after[0][column]`. -/
def Memory.fromBefore (mem : Memory) : Grid := fun k =>
  if k < gridSize then mem.before k else mem.after (k - gridSize)

/-- On a board that fits, no test of a cell of the board reads more than `before`. -/
theorem neighborTest_fromBefore {lineSize columnSize : ℕ} (hfits : Fits lineSize columnSize)
    (mem : Memory) {line column : ℤ} (hline : line < lineSize) (hcolumn : column < columnSize)
    (k : ℕ) : neighborTest lineSize columnSize mem.fromBefore line column k =
      neighborTest lineSize columnSize mem.before line column k :=
  neighborTest_congr hfits (fun _ hk => if_pos hk) hline hcolumn k

/-- What `main` knows when it creates the threads: the memory from the first cell of
`before` on as the reader has left it, the sizes of the board, the number of generations
and the number of threads. -/
structure Game where
  lineSize : ℕ
  columnSize : ℕ
  numberOfGenerations : ℕ
  numberOfThreads : ℕ
  before : Grid
  uninit : ℕ → ℕ → Msg
  lineSize_le : lineSize ≤ 40
  columnSize_le : columnSize ≤ 40
  one_le_generations : 1 ≤ numberOfGenerations
  one_le_threads : 1 ≤ numberOfThreads
  threads_le_max : numberOfThreads ≤ 10
  threads_le_lines : numberOfThreads ≤ lineSize

/-- Where `main` is. -/
inductive MainLoc where
  | create (i : ℕ)
  | sendRange (i : ℕ)
  | sendGo (cGen allDoneCounter i : ℕ)
  | collect (cGen allDoneCounter i : ℕ)
  | isAllZero (cGen allDoneCounter i j : ℕ) (isZero : Bool)
  | hasNotChanged (cGen allDoneCounter i j : ℕ) (notChanged : Bool)
  | sendStop (cGen allDoneCounter i : ℕ)
  | updateMatrix (cGen allDoneCounter i j : ℕ)
  | print (cGen allDoneCounter i j : ℕ)
  | join (cGen allDoneCounter i : ℕ)
  | finished (cGen allDoneCounter : ℕ)
  deriving DecidableEq, Repr

/-- The local variables of `linesthread`. -/
structure WorkerVars where
  lineFrom : ℤ
  lineTo : ℤ
  gen : ℕ
  message : Msg
  deriving DecidableEq, Repr

/-- Where a worker is. `stopped` and `returned` are its two calls of
`pthread_exit`, and `wrongMessage` its two calls of `exit(1)`. -/
inductive WorkerLoc where
  | recvRange
  | recvGo (v : WorkerVars)
  | row (v : WorkerVars) (line column : ℤ)
  | neighbor (v : WorkerVars) (line column : ℤ) (k counter : ℕ)
  | sendGenDone (v : WorkerVars)
  | lockCount (v : WorkerVars)
  | incrementCount (v : WorkerVars)
  | unlockCount (v : WorkerVars)
  | testCount (v : WorkerVars)
  | postAll (v : WorkerVars) (i : ℕ)
  | waitAll (v : WorkerVars)
  | sendAllDone (v : WorkerVars)
  | returned (v : WorkerVars)
  | stopped (v : WorkerVars)
  | wrongMessage
  deriving DecidableEq, Repr

/-- A step that only moves on. -/
abbrev goto {Loc : Type} (l : Loc) : Instr ThreadId ℕ BarrierSem Msg Memory Loc :=
  .access fun mem => (mem, l)

section Code

variable (g : Game)

/-- `range`, the number of lines of every worker but the last. -/
def Game.range : ℕ := g.lineSize / g.numberOfThreads

/-- The RANGE message that `main` sends to worker `i + 1`. -/
def Game.rangeMsg (i : ℕ) : Msg :=
  if i + 1 < g.numberOfThreads then
    { iFrom := 0, type := .range, value1 := i * g.range, value2 := (i + 1) * g.range - 1 }
  else
    { iFrom := 0, type := .range, value1 := (g.numberOfThreads - 1 : ℕ) * g.range,
      value2 := g.lineSize - 1 }

/-- `main`, from the creation of the threads on. -/
def mainCode : MainLoc → Instr ThreadId ℕ BarrierSem Msg Memory MainLoc
  | .create i =>
      if i ≤ g.numberOfThreads then .create (.worker i) (.create (i + 1))
      else goto (.sendRange 0)
  | .sendRange i =>
      if i + 1 < g.numberOfThreads then
        sendMsg (i + 1) (g.rangeMsg i) (.sendRange (i + 1))
      else sendMsg g.numberOfThreads (g.rangeMsg i) (.sendGo 0 0 1)
  | .sendGo cGen allDoneCounter i =>
      if i ≤ g.numberOfThreads then
        sendMsg i { g.uninit cGen i with type := .go } (.sendGo cGen allDoneCounter (i + 1))
      else goto (.collect cGen allDoneCounter 1)
  | .collect cGen allDoneCounter i =>
      if i ≤ g.numberOfThreads then
        recvMsg 0 fun message =>
          if message.type = .genDone then .collect cGen allDoneCounter (i + 1)
          else if message.type = .allDone then .collect cGen (allDoneCounter + 1) (i + 1)
          else .collect cGen allDoneCounter (i + 1)
      else if allDoneCounter = g.numberOfThreads then goto (.print cGen allDoneCounter 0 0)
      else goto (.isAllZero (cGen + 1) allDoneCounter 0 0 true)
  | .isAllZero cGen allDoneCounter i j isZero =>
      if i < g.lineSize then
        if j < g.columnSize then
          .access fun mem =>
            (mem, .isAllZero cGen allDoneCounter i (j + 1)
              (if cell mem.after i j ≠ 0 then false else isZero))
        else goto (.isAllZero cGen allDoneCounter (i + 1) 0 isZero)
      else if isZero then goto (.sendStop cGen allDoneCounter 1)
      else goto (.hasNotChanged cGen allDoneCounter 0 0 true)
  | .hasNotChanged cGen allDoneCounter i j notChanged =>
      if i < g.lineSize then
        if j < g.columnSize then
          .access fun mem =>
            (mem, .hasNotChanged cGen allDoneCounter i (j + 1)
              (if cell mem.before i j ≠ cell mem.after i j then false else notChanged))
        else goto (.hasNotChanged cGen allDoneCounter (i + 1) 0 notChanged)
      else if notChanged then goto (.sendStop cGen allDoneCounter 1)
      else goto (.updateMatrix cGen allDoneCounter 0 0)
  | .sendStop cGen allDoneCounter i =>
      if i ≤ g.numberOfThreads then
        sendMsg i { g.uninit cGen i with type := .stop } (.sendStop cGen allDoneCounter (i + 1))
      else goto (.print cGen allDoneCounter 0 0)
  | .updateMatrix cGen allDoneCounter i j =>
      if i < g.lineSize then
        if j < g.columnSize then
          .access fun mem =>
            ({ mem with before := store mem.before i j (cell mem.after i j) },
              .updateMatrix cGen allDoneCounter i (j + 1))
        else goto (.updateMatrix cGen allDoneCounter (i + 1) 0)
      else if allDoneCounter = g.numberOfThreads then goto (.print cGen allDoneCounter 0 0)
      else goto (.sendGo cGen allDoneCounter 1)
  | .print cGen allDoneCounter i j =>
      if i < g.lineSize then
        if j < g.columnSize then
          .access fun mem =>
            ({ mem with printed := mem.printed ++ [cell mem.after i j] },
              .print cGen allDoneCounter i (j + 1))
        else goto (.print cGen allDoneCounter (i + 1) 0)
      else goto (.join cGen allDoneCounter 1)
  | .join cGen allDoneCounter i =>
      if i ≤ g.numberOfThreads then .join (.worker i) (.join cGen allDoneCounter (i + 1))
      else goto (.finished cGen allDoneCounter)
  | .finished _ _ => .exit

/-- The test of the generation loop of `linesthread`. -/
def forGen (v : WorkerVars) : WorkerLoc :=
  if v.gen ≤ g.numberOfGenerations then .recvGo v else .lockCount v

/-- `linesthread`. -/
def linesthread (threadID : ℕ) : WorkerLoc → Instr ThreadId ℕ BarrierSem Msg Memory WorkerLoc
  | .recvRange =>
      recvMsg threadID fun message =>
        if message.type ≠ .range then .wrongMessage
        else forGen g
          { lineFrom := message.value1, lineTo := message.value2, gen := 1, message := message }
  | .recvGo v =>
      recvMsg threadID fun message =>
        if message.type = .stop then .stopped { v with message := message }
        else if message.type = .go then .row { v with message := message } v.lineFrom 0
        else .wrongMessage
  | .row v line column =>
      if line ≤ v.lineTo then
        if column < g.columnSize then goto (.neighbor v line column 0 0)
        else goto (.row v (line + 1) 0)
      else goto (.sendGenDone { v with message := { v.message with type := .genDone } })
  | .neighbor v line column k counter =>
      if k < 8 then
        .access fun mem =>
          (mem, .neighbor v line column (k + 1) (counter +
            if neighborTest g.lineSize g.columnSize mem.fromBefore line column k then 1 else 0))
      else
        .access fun mem =>
          ({ mem with after := store mem.after line column (rule mem.before line column counter) },
            .row v line (column + 1))
  | .sendGenDone v => sendMsg 0 v.message (forGen g { v with gen := v.gen + 1 })
  | .lockCount v => .wait .genDoneSem (.incrementCount v)
  | .incrementCount v =>
      .access fun mem => ({ mem with barrierCount := mem.barrierCount + 1 }, .unlockCount v)
  | .unlockCount v => .post .genDoneSem (.testCount v)
  | .testCount v =>
      .access fun mem =>
        (mem, if mem.barrierCount = g.numberOfThreads then .postAll v 0 else .waitAll v)
  | .postAll v i =>
      if i ≤ g.numberOfThreads then .post .allDoneSem (.postAll v (i + 1))
      else goto (.waitAll v)
  | .waitAll v =>
      .wait .allDoneSem (.sendAllDone { v with message := { v.message with type := .allDone } })
  | .sendAllDone v => sendMsg 0 v.message (.returned v)
  | .returned _ => .exit
  | .stopped _ => .exit
  | .wrongMessage => .abort

/-- The control points of each thread. -/
@[reducible] def Loc : ThreadId → Type
  | .main => MainLoc
  | .worker _ => WorkerLoc

/-- The program of all threads. -/
@[reducible] def Game.program : Program ThreadId ℕ BarrierSem Msg Memory where
  Loc := Loc
  code := fun t =>
    match t with
    | .main => mainCode g
    | .worker threadID => linesthread g threadID

/-- The memory when the threads are created. -/
def Game.memory : Memory where
  before := g.before
  after := fun k => g.before (k + gridSize)
  barrierCount := 0
  printed := []

/-- Only `main` runs at first; `gendone_sem` is one and `alldone_sem` is zero. -/
def Game.start (blank : Msg) : State g.program :=
  State.initial g.program
    (fun t => match t with
      | .main => MainLoc.create 1
      | .worker _ => WorkerLoc.recvRange)
    (fun t => if t = .main then .running else .new)
    (fun q => match q with
      | .genDoneSem => 1
      | .allDoneSem => 0)
    g.memory
    blank

end Code

/-- What a loop over the cells does when it uses the memory: it goes past a cell, past
the end of a line, or out of the loop. -/
theorem access_of_scan {g : Game} {i j : ℕ} {f inside : Memory → Memory × MainLoc}
    {line : MainLoc} {done : Instr ThreadId ℕ BarrierSem Msg Memory MainLoc}
    (h : (if i < g.lineSize then if j < g.columnSize then .access inside else goto line
      else done) = Instr.access f) :
    (i < g.lineSize ∧ j < g.columnSize ∧ f = inside) ∨
      (i < g.lineSize ∧ g.columnSize ≤ j ∧ f = fun mem => (mem, line)) ∨
      (g.lineSize ≤ i ∧ done = .access f) := by
  split at h
  · rename_i hi
    split at h
    · rename_i hj
      exact .inl ⟨hi, hj, (Instr.access.inj h).symm⟩
    · rename_i hj
      exact .inr (.inl ⟨hi, Nat.le_of_not_lt hj, (Instr.access.inj h).symm⟩)
  · rename_i hi
    exact .inr (.inr ⟨Nat.le_of_not_lt hi, h⟩)

end Life

end OperatingSystems
