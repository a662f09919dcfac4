import OperatingSystems.Life.Deadlock
import OperatingSystems.Output.Text
import OperatingSystems.Thread.Erasure

/-!
# Life at a terminal

With `print` set to `y` the main thread of life shows the board before every round,
and with `input` set to `y` it waits for a byte of standard input there. Both come
at the head of the generation loop, before the first GO of a round. At the end it
always writes the number of generations and the last board.

Every cell that is written is a step of its own, as in the game without a terminal,
so the workers run in between. Apart from what is written and read the program does
what `Game.program` does: it covers that program.
-/

namespace OperatingSystems

namespace Life

open OperatingSystems.Thread OperatingSystems.Output

/-- The arguments `print` and `input`. -/
structure Options where
  isPrint : Bool
  isInput : Bool
  deriving DecidableEq, Repr

/-- The memory with what has been written and what is still to be read. -/
structure Terminal where
  mem : Memory
  output : List UInt8
  input : List UInt8

/-- Where `main` is: in the game, or at the head of the generation loop, where it
writes the number of the generation, the cells of `before` and an empty line, and
then waits. `improper` comes after a message that is neither GENDONE nor ALLDONE. -/
inductive TerminalLoc where
  | game (l : MainLoc)
  | head (cGen allDoneCounter : ℕ)
  | matrix (cGen allDoneCounter i j : ℕ)
  | get (cGen allDoneCounter : ℕ)
  | improper (l : MainLoc)
  deriving DecidableEq, Repr

/-- The first GO of a round comes after the head of the loop. -/
def enter : MainLoc → TerminalLoc
  | .sendGo cGen allDoneCounter 1 => .head cGen allDoneCounter
  | l => .game l

/-- The text `Generation n:`. -/
def generationLine (cGen : ℕ) : List UInt8 := ascii "Generation " ++ decimal cGen ++ ascii ":\n"

/-- The text above the last board. -/
def endLine (cGen : ℕ) : List UInt8 :=
  ascii "The game ends after " ++ decimal cGen ++ ascii " generations with:\n"

def improperLine : List UInt8 := ascii "messages sent back improperly\n"

/-- A cell and the blank after it. -/
def cellText (value : ℤ) : List UInt8 := decimal value ++ [32]

/-- What is written to the terminal. -/
def Terminal.put (c : Terminal) (bytes : List UInt8) : Terminal :=
  { c with output := c.output ++ bytes }

section Code

variable (g : Game) (o : Options)

/-- What `main` writes on its way from one control point of the game to another. -/
def puts (mem : Memory) : MainLoc → MainLoc → List UInt8
  | .print _ _ i j, _ =>
      if i < g.lineSize then
        if j < g.columnSize then cellText (cell mem.after i j) else [10]
      else []
  | _, .print cGen _ _ _ => endLine cGen
  | _, _ => []

/-- An instruction of the game with what it writes. -/
def write (l : MainLoc) : Instr ThreadId ℕ BarrierSem Msg Memory MainLoc →
    Instr ThreadId ℕ BarrierSem Msg Terminal TerminalLoc
  | .send b m l' => .send b m (enter l')
  | .recv b k =>
      .recv b fun message =>
        if message.type = .genDone ∨ message.type = .allDone then enter (k message)
        else .improper (k message)
  | .wait q l' => .wait q (enter l')
  | .post q l' => .post q (enter l')
  | .access f =>
      .access fun c =>
        ({ c.put (puts g c.mem l (f c.mem).2) with mem := (f c.mem).1 }, enter (f c.mem).2)
  | .create u l' => .create u (enter l')
  | .join u l' => .join u (enter l')
  | .exit => .exit
  | .abort => .abort

/-- `main`, from the creation of the threads on. -/
def terminalCode : TerminalLoc → Instr ThreadId ℕ BarrierSem Msg Terminal TerminalLoc
  | .game l => write g l (mainCode g l)
  | .head cGen allDoneCounter =>
      if o.isPrint then
        .access fun c => (c.put (generationLine cGen), .matrix cGen allDoneCounter 0 0)
      else .access fun c => (c, .get cGen allDoneCounter)
  | .matrix cGen allDoneCounter i j =>
      if i < g.lineSize then
        if j < g.columnSize then
          .access fun c =>
            (c.put (cellText (cell c.mem.before i j)), .matrix cGen allDoneCounter i (j + 1))
        else .access fun c => (c.put [10], .matrix cGen allDoneCounter (i + 1) 0)
      else .access fun c => (c.put [10], .get cGen allDoneCounter)
  | .get cGen allDoneCounter =>
      .access fun c =>
        (if o.isInput then { c with input := c.input.tail } else c,
          .game (.sendGo cGen allDoneCounter 1))
  | .improper l => .access fun c => (c.put improperLine, .game l)

/-- A worker writes nothing. -/
def onMemory {Loc : Type} : Instr ThreadId ℕ BarrierSem Msg Memory Loc →
    Instr ThreadId ℕ BarrierSem Msg Terminal Loc
  | .send b m l => .send b m l
  | .recv b k => .recv b k
  | .wait q l => .wait q l
  | .post q l => .post q l
  | .access f => .access fun c => ({ c with mem := (f c.mem).1 }, (f c.mem).2)
  | .create u l => .create u l
  | .join u l => .join u l
  | .exit => .exit
  | .abort => .abort

/-- The control points of each thread. -/
@[reducible] def TLoc : ThreadId → Type
  | .main => TerminalLoc
  | .worker _ => WorkerLoc

/-- The program of all threads at a terminal. -/
@[reducible] def Game.terminal : Program ThreadId ℕ BarrierSem Msg Terminal where
  Loc := TLoc
  code := fun t =>
    match t with
    | .main => terminalCode g o
    | .worker threadID => fun l => onMemory (linesthread g threadID l)

/-- Nothing has been written, and all of `input` is still to be read. -/
def Game.startTerminal (blank : Msg) (input : List UInt8) : State (g.terminal o) :=
  State.initial (g.terminal o)
    (fun t => match t with
      | .main => TerminalLoc.game (.create 1)
      | .worker _ => WorkerLoc.recvRange)
    (fun t => if t = .main then .running else .new)
    (fun q => match q with
      | .genDoneSem => 1
      | .allDoneSem => 0)
    { mem := g.memory, output := [], input := input }
    blank

/-- The control point of the game. -/
def TerminalLoc.inGame : TerminalLoc → MainLoc
  | .game l => l
  | .head cGen allDoneCounter => .sendGo cGen allDoneCounter 1
  | .matrix cGen allDoneCounter _ _ => .sendGo cGen allDoneCounter 1
  | .get cGen allDoneCounter => .sendGo cGen allDoneCounter 1
  | .improper l => l

/-- The steps left at the head of the loop. -/
def TerminalLoc.rank : TerminalLoc → ℕ
  | .game _ => 0
  | .head _ _ => scanRank g 0 0 + 3
  | .matrix _ _ i j => scanRank g i j + 2
  | .get _ _ => 1
  | .improper _ => 1

end Code

section Covers

variable {g : Game} (o : Options)

@[simp] theorem inGame_enter (l : MainLoc) : (enter l).inGame = l := by
  unfold enter
  split <;> rfl

theorem write_matches (l : MainLoc) (i : Instr ThreadId ℕ BarrierSem Msg Memory MainLoc) :
    (write g l i).Matches Terminal.mem TerminalLoc.inGame i := by
  cases i with
  | send b m l' => exact .send (inGame_enter l')
  | recv b k =>
      refine .recv fun message => ?_
      split
      · exact inGame_enter _
      · rfl
  | wait q l' => exact .wait (inGame_enter l')
  | post q l' => exact .post (inGame_enter l')
  | access f => exact .access fun c => by rw [inGame_enter]
  | create u l' => exact .create (inGame_enter l')
  | join u l' => exact .join (inGame_enter l')
  | exit => exact .exit
  | abort => exact .abort

theorem onMemory_matches {Loc : Type} (i : Instr ThreadId ℕ BarrierSem Msg Memory Loc) :
    (onMemory i).Matches Terminal.mem id i := by
  cases i with
  | send b m l => exact .send rfl
  | recv b k => exact .recv fun _ => rfl
  | wait q l => exact .wait rfl
  | post q l => exact .post rfl
  | access f => exact .access fun _ => rfl
  | create u l => exact .create rfl
  | join u l => exact .join rfl
  | exit => exact .exit
  | abort => exact .abort

/-- At the head of the loop `main` only writes and reads. -/
theorem silent_of_not_game {l : TerminalLoc} (h : ∀ l', l ≠ .game l') :
    (terminalCode g o l).Silent Terminal.mem TerminalLoc.inGame (TerminalLoc.rank g) l := by
  cases l with
  | game l => exact absurd rfl (h l)
  | head cGen al =>
      simp only [terminalCode]
      split
      · exact ⟨_, rfl, fun c => ⟨rfl, rfl, Nat.lt_succ_self _⟩⟩
      · exact ⟨_, rfl, fun c => ⟨rfl, rfl, by simp only [TerminalLoc.rank]; omega⟩⟩
  | matrix cGen al i j =>
      simp only [terminalCode]
      split
      · rename_i hi
        split
        · rename_i hj
          have hlt := scanRank_column (g := g) (i := i) hj
          exact ⟨_, rfl, fun c => ⟨rfl, rfl, by simp only [TerminalLoc.rank]; omega⟩⟩
        · have hlt := scanRank_line (g := g) (j := j) hi
          exact ⟨_, rfl, fun c => ⟨rfl, rfl, by simp only [TerminalLoc.rank]; omega⟩⟩
      · exact ⟨_, rfl, fun c => ⟨rfl, rfl, by simp only [TerminalLoc.rank]; omega⟩⟩
  | get cGen al =>
      refine ⟨_, rfl, fun c => ⟨?_, rfl, Nat.one_pos⟩⟩
      dsimp only
      split <;> rfl
  | improper l => exact ⟨_, rfl, fun c => ⟨rfl, rfl, Nat.one_pos⟩⟩

variable (g)

/-- The program at a terminal covers the game. -/
def terminalErasure : Erasure (g.terminal o) g.program where
  loc := fun t =>
    match t with
    | .main => TerminalLoc.inGame
    | .worker _ => id
  mem := Terminal.mem
  rank := fun t =>
    match t with
    | .main => TerminalLoc.rank g
    | .worker _ => fun _ => 0
  covers := fun t l => by
    cases t with
    | main =>
        cases l with
        | game l => exact .inr (write_matches l _)
        | _ => exact .inl (silent_of_not_game o (by simp))
    | worker i => exact .inr (onMemory_matches _)

theorem state_startTerminal (blank : Msg) (input : List UInt8) :
    (terminalErasure g o).state (g.startTerminal o blank input) = g.start blank := by
  simp only [Erasure.state, Erasure.core, Game.startTerminal, Game.start, State.initial]
  congr 2
  funext t
  cases t <;> rfl

/-- Whatever is shown and read on the way, the states of the game that can be reached
are the same. -/
theorem reachable_terminal_iff (blank : Msg) (input : List UInt8) (p : State g.program) :
    Transition.Reachable next (g.start blank) p ↔
      ∃ s, Transition.Reachable next (g.startTerminal o blank input) s ∧
        (terminalErasure g o).state s = p := by
  rw [← state_startTerminal g o blank input]
  exact (terminalErasure g o).reachable_iff

/-- No state at a terminal that is reached before `main` has joined all workers is
without an enabled step. -/
def DeadlockFreeTerminal (blank : Msg) (input : List UInt8) : Prop :=
  ∀ s, Transition.Reachable next (g.startTerminal o blank input) s →
    (∀ cGen al, (s.loc .main).inGame ≠ .finished cGen al) → ∃ t s', next t s = some s'

variable {g o}

/-- Where the program at a terminal always goes on, the game does: after finitely many
steps at the head of the loop the next step is one of the game. -/
theorem exists_next_of_terminal {blank : Msg} {input : List UInt8}
    (h : DeadlockFreeTerminal g o blank input) {s : State (g.terminal o)}
    (hs : Transition.Reachable next (g.startTerminal o blank input) s)
    (hmain : ∀ cGen al, (s.loc .main).inGame ≠ .finished cGen al) :
    ∃ t p, next t ((terminalErasure g o).state s) = some p := by
  induction hn : (s.loc .main).rank g using Nat.strong_induction_on generalizing s with
  | h n ih =>
      obtain ⟨t, s', hs'⟩ := h s hs hmain
      rcases (terminalErasure g o).covers t (s.loc t) with hsilent | hmatches
      · obtain ⟨s'', hs'', hstate, hrank⟩ :=
          (terminalErasure g o).next_of_silent (next_eq_some_iff.mp hs').1 hsilent
        obtain rfl := Option.some.inj (hs'.symm.trans hs'')
        cases t with
        | main =>
            have hloc : (s'.loc .main).inGame = (s.loc .main).inGame :=
              congrArg (fun p : State g.program => p.loc .main) hstate
            rw [← hstate]
            exact ih _ (hn ▸ hrank) (hs.tail ⟨_, hs'⟩) (fun cGen al => hloc ▸ hmain cGen al) rfl
        | worker i => exact absurd hrank (Nat.not_lt_zero _)
      · refine ⟨t, (terminalErasure g o).state s', ?_⟩
        rw [← (terminalErasure g o).next_of_matches hmatches, hs']
        rfl

variable (g o)

/-- Showing the boards and waiting for input change neither the states that the game
can reach nor whether it can come to a halt before its end. -/
theorem terminal_transparent (blank : Msg) (input : List UInt8) :
    (∀ p, Transition.Reachable next (g.start blank) p ↔
      ∃ s, Transition.Reachable next (g.startTerminal o blank input) s ∧
        (terminalErasure g o).state s = p) ∧
      (DeadlockFreeTerminal g o blank input ↔ DeadlockFree g blank) := by
  refine ⟨reachable_terminal_iff g o blank input, fun h p hp hmain => ?_, fun h s hs hmain => ?_⟩
  · obtain ⟨s, hs, rfl⟩ := (reachable_terminal_iff g o blank input p).mp hp
    exact exists_next_of_terminal h hs hmain
  · obtain ⟨t, p, hp⟩ :=
      h _ ((reachable_terminal_iff g o blank input _).mpr ⟨s, hs, rfl⟩) hmain
    obtain ⟨s', hs', -⟩ := (terminalErasure g o).next_of_state hp
    exact ⟨t, s', hs'⟩

end Covers

end Life

end OperatingSystems
