import OperatingSystems.Life.Transcript
import OperatingSystems.Thread.Ranked

/-!
# Complete runs of life

No schedule of the threads goes on for ever: `maxSteps` bounds them all, with every
part of a mailbox operation, every cell that is shown and every wait for input
counted. A schedule that cannot be continued has written all that the sequential
game writes, also where it deadlocks, since `main` writes its last lines before it
joins the workers.
-/

namespace OperatingSystems

namespace Life

open OperatingSystems.Thread OperatingSystems.Mailbox OperatingSystems.Output

section Lengths

variable (g : Game) (o : Options)

/-- The threads of the game. -/
def Game.threads : Finset ThreadId := insert .main (g.workers.image .worker)

/-- A bound on the steps of all threads together. -/
def Game.maxSteps : ℕ :=
  (scanRank g 0 0 + 4) *
    (5 * (mainRank g (.create 1) + 1 + g.numberOfThreads * (workerRank g .recvRange + 1)) +
      2 * (g.numberOfThreads + 1))

variable {g}

theorem Game.mem_threads {t : ThreadId} :
    t ∈ g.threads ↔ t = .main ∨ ∃ i ∈ g.workers, t = .worker i := by
  simp [Game.threads, eq_comm]

theorem Game.main_notMem : ThreadId.main ∉ g.workers.image ThreadId.worker := by simp

theorem Game.sum_threads (f : ThreadId → ℕ) :
    ∑ t ∈ g.threads, f t = f .main + ∑ i ∈ g.workers, f (.worker i) := by
  rw [Game.threads, Finset.sum_insert Game.main_notMem,
    Finset.sum_image fun i _ j _ h => ThreadId.worker.inj h]

/-- The rank of the atomic game bounds its runs. -/
theorem ranked_start (blank : Msg) :
    Ranked (g.start blank) g.threads fun a => rank g (view a) := by
  refine ⟨exclusive_start g blank, fun s hs t ht => ?_, fun t a a' ha hnext => ?_⟩
  · have hinv := inv_of_reachable (abstract_reachable (exclusive_start g blank) hs)
    cases t with
    | main => exact Game.mem_threads.mpr (.inl rfl)
    | worker i =>
        have hi := hinv.lives.mem_workers hinv.flow.mainOk ht.2
        exact Game.mem_threads.mpr (.inr ⟨i, hi, rfl⟩)
  · have hinv := inv_of_reachable ha
    obtain ⟨-, hrun, hm⟩ := move_of_step hnext
    cases t with
    | main => exact rank_mainMove hinv hrun hm
    | worker i => exact rank_workerMove hinv hrun hm

theorem ranked_startTerminal (blank : Msg) (input : List UInt8) :
    Ranked ((terminalErasure g o).state (g.startTerminal o blank input)) g.threads
      fun a => rank g (view a) := by
  rw [state_startTerminal]
  exact ranked_start blank

/-- Between two steps of the game `main` shows one board at most. -/
theorem rank_terminalErasure_le (t : ThreadId) (l : (g.terminal o).Loc t) :
    (terminalErasure g o).rank t l ≤ scanRank g 0 0 + 3 := by
  have hscan : ∀ i j, scanRank g i j ≤ scanRank g 0 0 := fun i j =>
    Nat.add_le_add (Nat.mul_le_mul_right _ (Nat.sub_le_sub_left (Nat.zero_le i) _))
      (Nat.sub_le_sub_left (Nat.zero_le j) _)
  cases t with
  | main =>
      cases l with
      | matrix cGen al i j => exact Nat.add_le_add (hscan i j) (by decide)
      | game l => exact Nat.zero_le _
      | head cGen al => exact le_rfl
      | get cGen al => exact Nat.le_add_left 1 _ |>.trans (Nat.add_le_add_left (by decide) _)
      | improper l => exact Nat.le_add_left 1 _ |>.trans (Nat.add_le_add_left (by decide) _)
  | worker i => exact Nat.zero_le _

/-- What is left to do at first. -/
theorem measure_startTerminal (blank : Msg) (input : List UInt8) :
    (terminalErasure g o).measure (fun a => rank g (view a)) g.threads (scanRank g 0 0 + 3)
      (g.startTerminal o blank input) = g.maxSteps := by
  have hrank : rank g (view (abstract (g.start blank))) =
      mainRank g (.create 1) + 1 + g.numberOfThreads * (workerRank g .recvRange + 1) := by
    have hview : view (abstract (g.start blank)) = View.start g := view_start g blank
    simp [hview, View.start, rank, alive, Game.card_workers]
  have hstage : ∑ t ∈ g.threads, (g.start blank).stage t = 2 * (g.numberOfThreads + 1) := by
    have htwo : ∀ t, (g.start blank).stage t = 2 := by
      intro t
      unfold State.stage
      cases (g.program).code t ((g.start blank).loc t) <;> rfl
    rw [Game.sum_threads, Finset.sum_const_nat fun i _ => htwo _, htwo, Game.card_workers]
    omega
  have hzero : ∀ t, (terminalErasure g o).rank t ((g.startTerminal o blank input).loc t) = 0 := by
    intro t
    cases t <;> rfl
  simp only [Erasure.measure, State.measure, state_startTerminal, hrank, hstage, hzero,
    Finset.sum_const_zero, Game.maxSteps]
  rfl

/-- No schedule is longer. -/
theorem length_of_run {o : Options} {blank : Msg} {input : List UInt8} {schedule : List ThreadId}
    {s : State (g.terminal o)}
    (hrun : Transition.run next schedule (g.startTerminal o blank input) = some s) :
    schedule.length ≤ g.maxSteps := by
  have hlen := (ranked_startTerminal o blank input).length_of_run (rank_terminalErasure_le o) hrun
  rw [measure_startTerminal] at hlen
  omega

/-- Every schedule can be continued until no thread can take a step. -/
theorem exists_complete {o : Options} {blank : Msg} {input : List UInt8}
    {schedule : List ThreadId} {s : State (g.terminal o)}
    (hrun : Transition.run next schedule (g.startTerminal o blank input) = some s) :
    ∃ rest s', Transition.run next (schedule ++ rest) (g.startTerminal o blank input) = some s' ∧
      Transition.Stuck next s' := by
  exact Transition.exists_run_stuck _ schedule hrun fun t a a' ha hnext =>
    (ranked_startTerminal o blank input).erasure_of_next (rank_terminalErasure_le o) ha hnext

end Lengths

section Complete

variable {g : Game} {o : Options} {input : List UInt8} {blank : Msg}
variable {s : State (g.terminal o)}

/-- The board settles at the last generation and not before, and there are two
workers or more. -/
def Game.SettlesLast (g : Game) : Prop :=
  2 ≤ g.numberOfThreads ∧ IsLeast {n | 1 ≤ n ∧ g.Settled n} g.numberOfGenerations

/-- Where `main` is in the game and not at the head of its loop. -/
theorem OnScreen.eq_game {l : TerminalLoc} {c : Terminal} {m : MainLoc}
    (h : OnScreen g o input l c) (hl : l.inGame = m) (hm : ∀ cGen al, m ≠ .sendGo cGen al 1) :
    l = .game m := by
  cases l with
  | game l => exact congrArg _ hl
  | improper l => exact h.elim
  | head cGen al => exact absurd hl.symm (hm cGen al)
  | matrix cGen al i j => exact absurd hl.symm (hm cGen al)
  | get cGen al => exact absurd hl.symm (hm cGen al)

/-- What is known of the game. -/
theorem facts_of_state (hfits : Fits g.lineSize g.columnSize)
    (hs : Transition.Reachable next (g.startTerminal o blank input) s) :
    Inv g (view (abstract ((terminalErasure g o).state s))) ∧
      Memo g (view (abstract ((terminalErasure g o).state s))) := by
  have hreach := (reachable_terminal_iff g o blank input _).mpr ⟨s, hs, rfl⟩
  have ha := abstract_reachable (exclusive_start g blank) hreach
  exact ⟨inv_of_reachable ha, memo_of_reachable hfits ha⟩

/-- A schedule that cannot be continued leaves `main` at its end, or in a join where
the game deadlocks. -/
theorem main_of_stuck (hfits : Fits g.lineSize g.columnSize)
    (hs : Transition.Reachable next (g.startTerminal o blank input) s)
    (hstuck : Transition.Stuck next s) :
    (∃ cGen al, s.loc .main = TerminalLoc.game (.finished cGen al)) ∨
      g.SettlesLast ∧ ∃ i, s.loc .main = TerminalLoc.game (.join g.numberOfGenerations 0 i) := by
  have hreach := (reachable_terminal_iff g o blank input _).mpr ⟨s, hs, rfl⟩
  have hgame := (terminalErasure g o).stuck_state hstuck
  have hscreen := onScreen_of_reachable hfits hs
  obtain ⟨hinv, hmemo⟩ := facts_of_state hfits hs
  by_cases hmain : ∀ cGen al, ((terminalErasure g o).state s).loc .main ≠
      MainLoc.finished cGen al
  · have hblocked := blocked_of_stuck hreach hgame hmain
    obtain ⟨-, i, hi⟩ := join_of_blocked hblocked
    refine .inr ⟨settles_last_of_blocked hblocked hmemo, i, hscreen.eq_game ?_ (by simp)⟩
    have hrecv : ∀ b k m, mainCode g (s.loc .main).inGame = .recv b k →
        k m ≠ .join g.numberOfGenerations 0 i := by
      intro b k m hc hk
      obtain ⟨-, cGen, al, i', al', i'', -, hcollect⟩ := collect_of_recv hc m
      exact absurd (hcollect.symm.trans hk) (by simp)
    rcases abstractLoc_cases ((terminalErasure g o).state s) .main with heq | ⟨b, k, m, hc, heq⟩
    · exact heq.symm.trans hi
    · exact absurd (heq.symm.trans hi) (hrecv b k m hc)
  · simp only [not_forall, not_not] at hmain
    obtain ⟨cGen, al, hfin⟩ := hmain
    exact .inl ⟨cGen, al, hscreen.eq_game hfin (by simp)⟩

/-- At its end `main` has joined all workers. -/
theorem exited_of_finished (hfits : Fits g.lineSize g.columnSize)
    (hs : Transition.Reachable next (g.startTerminal o blank input) s)
    (hstuck : Transition.Stuck next s) {cGen al : ℕ}
    (hl : s.loc .main = TerminalLoc.game (.finished cGen al)) :
    ∀ t ∈ g.threads, s.status t = .exited := by
  obtain ⟨hinv, -⟩ := facts_of_state hfits hs
  have hin : (s.loc .main).inGame = .finished cGen al := by rw [hl]; rfl
  have hview : (view (abstract ((terminalErasure g o).state s))).main = .finished cGen al :=
    abstract_main (g := g) (s := (terminalErasure g o).state s) hin (by simp [mainCode])
  intro t ht
  rcases Game.mem_threads.mp ht with rfl | ⟨i, hi, rfl⟩
  · refine (hinv.lives.main.resolve_left fun hrun => ?_).1
    have hnone := hstuck .main
    have hactive : s.Active .main := ⟨hinv.lives.aborted, hrun⟩
    have hcode : (g.terminal o).code .main (s.loc .main) = .exit := by rw [hl]; rfl
    rw [next_core hactive (by rw [hcode]; rfl), hcode] at hnone
    simp [Core.next] at hnone
  · obtain ⟨hi1, hiT⟩ := Game.mem_workers.mp hi
    refine hinv.lives.joined i hi1 ?_
    rw [hview]
    exact Nat.lt_succ_of_le hiT

/-- All threads have ended, exactly if the board does not settle at the last
generation only. -/
theorem exited_iff_of_stuck (hfits : Fits g.lineSize g.columnSize)
    (hs : Transition.Reachable next (g.startTerminal o blank input) s)
    (hstuck : Transition.Stuck next s) :
    (∀ t ∈ g.threads, s.status t = .exited) ↔ ¬ g.SettlesLast := by
  obtain ⟨hinv, hmemo⟩ := facts_of_state hfits hs
  constructor
  · rintro hall ⟨hT, hleast⟩
    have hexit := hall .main (Game.mem_threads.mpr (.inl rfl))
    rcases hinv.lives.main with hrun | ⟨-, cGen, al, hfin⟩
    · exact absurd (hrun.symm.trans hexit) (by simp)
    · exact not_finished hinv hmemo hT hleast cGen al hfin
  · intro hnot
    rcases main_of_stuck hfits hs hstuck with ⟨cGen, al, hl⟩ | ⟨hlast, -⟩
    · exact exited_of_finished hfits hs hstuck hl
    · exact absurd hlast hnot

/-- A schedule that cannot be continued has written the whole transcript. -/
theorem transcript_of_stuck (hfits : Fits g.lineSize g.columnSize)
    (hs : Transition.Reachable next (g.startTerminal o blank input) s)
    (hstuck : Transition.Stuck next s) :
    ∃ n, g.Ends n ∧ s.mem.output = g.transcript o n ∧
      s.mem.input = unread o input (g.roundsBegun n) := by
  rcases main_of_stuck hfits hs hstuck with ⟨cGen, al, hl⟩ | ⟨-, i, hl⟩
  · exact ⟨cGen, transcript_of_printed hfits hs (.inr hl)⟩
  · exact ⟨_, transcript_of_printed hfits hs (.inl ⟨i, hl⟩)⟩

/-- A game has an end. -/
theorem Game.exists_ends (g : Game) : ∃ n, g.Ends n := by
  obtain ⟨n, hn, hmin⟩ := wellFounded_lt.has_min
    ({g.numberOfGenerations} ∪ {k | 1 ≤ k ∧ g.Settled k}) ⟨_, .inl rfl⟩
  exact ⟨n, hn, fun k hk => not_lt.mp (hmin k hk)⟩

end Complete

end Life

end OperatingSystems
