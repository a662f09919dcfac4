import OperatingSystems.Life.Schedule

/-!
# What is left in the mailboxes

Where a game ends early its workers take the STOP messages, and all mailboxes are
empty at the end. After the last generation nobody takes what `main` has sent to the
workers: that is a GO each if the game goes on to the round in which ALLDONE is said,
and a STOP each if the board has just settled. In that case no ALLDONE is collected
either, and one of them is left in mailbox 0.
-/

namespace OperatingSystems

namespace Life

open OperatingSystems.Thread OperatingSystems.Mailbox OperatingSystems.Output

variable {g : Game}

section Counts

variable {v : View} {i n al : ℕ}

/-- The counts of a worker that has ended. -/
theorem counts_of_exited (hinv : Inv g v) (hi : i ∈ g.workers)
    (hexit : v.status (.worker i) = .exited) :
    ((v.worker i).recvd = g.numberOfGenerations + 1 ∧
        (v.worker i).goRecvd = g.numberOfGenerations ∧
        (v.worker i).sent = g.numberOfGenerations + 1) ∨
      ((v.worker i).recvd = (v.worker i).sent + 2 ∧
        (v.worker i).sent < g.numberOfGenerations) := by
  have hok := hinv.flow.workerOk i hi
  have hgen := hok.one_le_gen
  have hloop := hok.inLoop
  have hpast := hok.pastLoop
  have hend := hinv.lives.ended i hexit
  cases hw : v.worker i with
  | returned w =>
      rw [hw] at hpast
      have heq : w.gen = g.numberOfGenerations + 1 := hpast rfl
      refine .inl ⟨heq, ?_, ?_⟩
      · change w.gen - 1 = _
        omega
      · change w.gen - 1 + 1 = _
        omega
  | stopped w =>
      rw [hw] at hloop hgen
      have hle : w.gen ≤ g.numberOfGenerations := hloop rfl
      have hone : 1 ≤ w.gen := hgen
      refine .inr ⟨?_, ?_⟩
      · change w.gen + 1 = w.gen - 1 + 2
        omega
      · change w.gen - 1 < _
        omega
  | _ => simp [hw, WorkerLoc.ended, WorkerLoc.halted] at hend

/-- Each worker has taken its STOP, or has left a message behind. -/
theorem worker_of_finished (hinv : Inv g v) (hm : v.main = .finished n al) (hi : i ∈ g.workers) :
    (n < g.numberOfGenerations ∧ full (v.box i) = 0 ∧ (v.worker i).sent = n) ∨
      (n = g.numberOfGenerations ∧ full (v.box i) = 1 ∧
        (v.worker i).recvd = g.numberOfGenerations + 1 ∧
        (v.worker i).sent = g.numberOfGenerations + 1) := by
  obtain ⟨hi1, hiT⟩ := Game.mem_workers.mp hi
  have hok := hinv.flow.mainOk
  have hcount := (hinv.flow.channel i hi).count
  have hgo := (hinv.flow.channel i hi).go
  have hfloor := hinv.flow.floor i hi
  have hexit := hinv.lives.joined i hi1 (by rw [hm]; exact Nat.lt_succ_of_le hiT)
  rw [hm] at hok hcount hgo hfloor
  obtain ⟨-, hnG, hal⟩ := hok
  change _ = n + 2 at hcount
  change _ ≤ n + (if al = 0 then 0 else 1) at hgo
  change n ≤ _ at hfloor
  rcases counts_of_exited hinv hi hexit with ⟨hrecvd, hgoRecvd, hsent⟩ | ⟨hrecvd, hsent⟩
  · refine .inr ?_
    have hlast : n = g.numberOfGenerations := by
      rcases hal with hzero | ⟨-, hlast⟩
      · rw [if_pos hzero] at hgo
        omega
      · exact hlast
    omega
  · exact .inl (by omega)

/-- Mailbox 0 is empty after an early end, and after a last round in which all
ALLDONE messages have been collected. -/
theorem parent_of_finished (hinv : Inv g v) (hm : v.main = .finished n al) :
    full (v.box 0) = if n = g.numberOfGenerations ∧ al = 0 then 1 else 0 := by
  have hT := g.one_le_threads
  have hok := hinv.flow.mainOk
  have hparent := hinv.flow.parent
  rw [hm] at hok hparent
  obtain ⟨-, hnG, hal⟩ := hok
  change _ = n * g.numberOfThreads + al + full (v.box 0) at hparent
  have hfull : full (v.box 0) ≤ 1 := by cases v.box 0 <;> simp
  rcases hnG.lt_or_eq with hlt | rfl
  · have hsum : total g WorkerLoc.sent v.worker ≤ g.numberOfThreads * n := by
      refine total_le fun i hi => ?_
      rcases worker_of_finished hinv hm hi with ⟨-, -, hsent⟩ | ⟨heq, -⟩
      · exact hsent.le
      · omega
    rw [hparent, Nat.mul_comm g.numberOfThreads] at hsum
    rw [if_neg (by omega)]
    omega
  · have hsent : ∀ i ∈ g.workers, (v.worker i).sent = g.numberOfGenerations + 1 := by
      intro i hi
      rcases worker_of_finished hinv hm hi with ⟨hlt, -⟩ | ⟨-, -, -, hsent⟩
      · omega
      · exact hsent
    have hlow := le_total_of_forall fun i hi => (hsent i hi).ge
    have hhigh := total_le fun i hi => (hsent i hi).le
    rw [hparent, Nat.mul_succ, Nat.mul_comm g.numberOfThreads] at hlow hhigh
    rcases hal with rfl | ⟨rfl, -⟩
    · rw [if_pos ⟨rfl, rfl⟩]
      omega
    · rw [if_neg (by omega)]
      omega

/-- In a deadlock each worker has left a message behind. -/
theorem worker_of_blocked (h : Blocked g v) {k : ℕ}
    (hm : v.main = .join g.numberOfGenerations 0 k) (hi : i ∈ g.workers) :
    full (v.box i) = 1 ∧ (v.worker i).recvd = g.numberOfGenerations + 1 ∧
      (v.worker i).counted = 1 := by
  obtain ⟨hcount, hgo, hfloor⟩ := h.join_counts hm hi
  rw [if_pos rfl, Nat.add_zero] at hgo
  cases h.rests hi with
  | start hbox hrecvd _ _ =>
      rw [hbox, full_none] at hcount
      omega
  | asks hbox hrecvd hgo' _ _ =>
      rw [hbox, full_none] at hcount
      omega
  | answers _ _ hgo' _ => omega
  | waits hcounted hrecvd _ _ _ => exact ⟨by omega, hrecvd, hcounted⟩
  | done _ hcounted hrecvd _ _ => exact ⟨by omega, hrecvd, hcounted⟩
  | returned _ hcounted hrecvd _ => exact ⟨by omega, hrecvd, hcounted⟩
  | stopped _ _ _ hsent => omega

/-- In a deadlock an ALLDONE message is in mailbox 0. -/
theorem parent_of_blocked (h : Blocked g v) {k : ℕ}
    (hm : v.main = .join g.numberOfGenerations 0 k) : v.box 0 ≠ none := by
  have hok := h.inv.flow.mainOk
  rw [hm] at hok
  obtain ⟨-, -, -, hk1, -⟩ := hok
  have hkT : k ≤ g.numberOfThreads := by
    by_contra hlt
    have hmain := h.main
    unfold MainBlocked at hmain
    rw [hm, mainCode, if_neg hlt] at hmain
    exact hmain
  have hk := Game.mem_workers.mpr ⟨hk1, hkT⟩
  have hrun := h.join_running hm hk
  obtain ⟨hcount, -, -⟩ := h.join_counts hm hk
  have hrecvd := (worker_of_blocked h hm hk).2.1
  cases h.rests hk with
  | start _ hzero _ _ => omega
  | asks _ hrecvd' _ hsent _ => omega
  | answers hbox _ _ _ => exact hbox
  | waits _ _ _ _ hw =>
      -- all workers have been counted, so the barrier is open
      obtain ⟨j, hj, hzero⟩ := h.exists_not_counted hk hw
      have hcounted := (worker_of_blocked h hm hj).2.2
      omega
  | done hbox _ _ _ _ => exact hbox
  | returned hexit _ _ _ => simp [hrun] at hexit
  | stopped hexit _ _ _ => simp [hrun] at hexit

end Counts

section Left

/-- `main` sends to the workers. -/
theorem target_of_mainCode {l l' : MainLoc} {b : ℕ} {m : Msg}
    (h : mainCode g l = .send b m l') : b ≤ g.numberOfThreads := by
  cases l <;> simp only [mainCode] at h
  all_goals
    repeat' split at h
    all_goals first | contradiction | (obtain ⟨rfl, -, -⟩ := Instr.send.inj h; omega)

/-- The workers send to `main`. -/
theorem target_of_linesthread {i : ℕ} {l l' : WorkerLoc} {b : ℕ} {m : Msg}
    (h : linesthread g i l = .send b m l') : b = 0 := by
  cases l <;> simp only [linesthread] at h
  all_goals
    repeat' split at h
    all_goals first | contradiction | exact (Instr.send.inj h).1.symm

/-- Nobody sends to a mailbox above those of the workers. -/
theorem box_above {blank : Msg} {a : Atomic g.program}
    (ha : Transition.Reachable atomicNext (g.init blank) a) {b : ℕ}
    (hb : g.numberOfThreads < b) : (view a).box b = none := by
  refine ha.invariant (I := fun a => (view a).box b = none) ?_ ?_
  · rw [Game.init, view_start]
    rfl
  · intro t a a' _ h hnext
    have hmove := (move_of_step hnext).2.2
    cases t with
    | main =>
        generalize view a' = s' at hmove ⊢
        cases hmove with
        | send c m l hi hc =>
            have hne : b ≠ c := fun heq => absurd (target_of_mainCode hi) (by omega)
            exact (Function.update_of_ne hne _ _).trans h
        | recv c l m hi hc =>
            by_cases hne : b = c
            · subst hne
              exact Function.update_self _ _ _
            · exact (Function.update_of_ne hne _ _).trans h
        | _ => exact h
    | worker i =>
        generalize view a' = s' at hmove ⊢
        cases hmove with
        | send c m l hi hc =>
            have hne : b ≠ c := fun heq => absurd (target_of_linesthread hi) (by omega)
            exact (Function.update_of_ne hne _ _).trans h
        | recv c l m hi hc =>
            by_cases hne : b = c
            · subst hne
              exact Function.update_self _ _ _
            · exact (Function.update_of_ne hne _ _).trans h
        | _ => exact h

/-- What is left in the mailboxes after a game of `n` generations. -/
structure Left (g : Game) (n : ℕ) (box : ℕ → Option Msg) : Prop where
  early : n < g.numberOfGenerations → ∀ b ≤ g.numberOfThreads, box b = none
  above : ∀ b, g.numberOfThreads < b → box b = none
  worker : n = g.numberOfGenerations → ∀ i ∈ g.workers, ∃ m, box i = some m ∧
    m.type = if g.Settled n then .stop else .go
  settled : n = g.numberOfGenerations → g.Settled n → ∃ m, box 0 = some m ∧ m.type = .allDone
  unsettled : n = g.numberOfGenerations → ¬ g.Settled n → box 0 = none

variable {v : View} {n al : ℕ}

theorem eq_none_of_full {box : Option Msg} (h : full box = 0) : box = none := by
  cases box with
  | none => rfl
  | some m => simp at h

theorem exists_of_full {box : Option Msg} (h : full box = 1) : ∃ m, box = some m := by
  cases box with
  | none => simp at h
  | some m => exact ⟨m, rfl⟩

/-- The message that a worker has left behind. -/
theorem type_of_left {i : ℕ} (hinv : Inv g v) (hi : i ∈ g.workers)
    (hrecvd : (v.worker i).recvd = n + 1) {m : Msg} (hm : v.box i = some m) :
    m.type = if n + 1 ≤ v.main.goSentTo i then .go else .stop := by
  have hcontent := ((hinv.flow.channel i hi).content m hm).2 (by omega)
  rwa [hrecvd] at hcontent

/-- The message that `main` has left behind. -/
theorem type_of_left_parent (hinv : Inv g v)
    (hcollected : v.main.collected g = g.numberOfGenerations * g.numberOfThreads) {m : Msg}
    (hm : v.box 0 = some m) : m.type = .allDone := by
  rw [hinv.flow.type m hm, hcollected, parentType, if_neg (lt_irrefl _)]

theorem left_of_finished (hinv : Inv g v) (hm : v.main = .finished n al)
    (hsettled : al = 0 ↔ g.Settled n) (habove : ∀ b, g.numberOfThreads < b → v.box b = none) :
    Left g n v.box := by
  have hparent := parent_of_finished hinv hm
  refine ⟨fun hlt b hb => ?_, habove, fun hlast i hi => ?_, fun hlast hs => ?_, fun hlast hs => ?_⟩
  · apply eq_none_of_full
    by_cases hzero : b = 0
    · rw [hzero, hparent, if_neg (by omega)]
    · have hi := Game.mem_workers.mpr ⟨Nat.one_le_iff_ne_zero.mpr hzero, hb⟩
      rcases worker_of_finished hinv hm hi with ⟨-, hfull, -⟩ | ⟨heq, -⟩
      · exact hfull
      · omega
  · rcases worker_of_finished hinv hm hi with ⟨hlt, -⟩ | ⟨-, hfull, hrecvd, -⟩
    · omega
    · obtain ⟨m, hbox⟩ := exists_of_full hfull
      have htype := type_of_left hinv hi hrecvd hbox
      rw [hm] at htype
      change _ = if _ ≤ n + (if al = 0 then 0 else 1) then _ else _ at htype
      refine ⟨m, hbox, ?_⟩
      by_cases hs : g.Settled n
      · rw [if_pos (hsettled.mpr hs), if_neg (by omega)] at htype
        rw [htype, if_pos hs]
      · rw [if_neg (mt hsettled.mp hs), if_pos (by omega)] at htype
        rw [htype, if_neg hs]
  · obtain rfl := hsettled.mpr hs
    rw [if_pos ⟨hlast, rfl⟩] at hparent
    obtain ⟨m, hbox⟩ := exists_of_full hparent
    refine ⟨m, hbox, type_of_left_parent hinv ?_ hbox⟩
    rw [hm, ← hlast]
    rfl
  · rw [if_neg (fun h => hs (hsettled.mp h.2))] at hparent
    exact eq_none_of_full hparent

theorem left_of_blocked (h : Blocked g v) {k : ℕ}
    (hm : v.main = .join g.numberOfGenerations 0 k) (hs : g.Settled g.numberOfGenerations)
    (habove : ∀ b, g.numberOfThreads < b → v.box b = none) :
    Left g g.numberOfGenerations v.box := by
  refine ⟨fun hlt => absurd hlt (lt_irrefl _), habove, fun _ i hi => ?_, fun _ _ => ?_,
    fun _ hnot => absurd hs hnot⟩
  · obtain ⟨hfull, hrecvd, -⟩ := worker_of_blocked h hm hi
    obtain ⟨m, hbox⟩ := exists_of_full hfull
    have htype := type_of_left h.inv hi hrecvd hbox
    rw [hm] at htype
    refine ⟨m, hbox, ?_⟩
    rw [htype, if_pos hs]
    exact if_neg (by simp [MainLoc.goSentTo])
  · obtain ⟨m, hbox⟩ := Option.ne_none_iff_exists'.mp (parent_of_blocked h hm)
    refine ⟨m, hbox, type_of_left_parent h.inv ?_ hbox⟩
    rw [hm]
    rfl

end Left

section Runs

variable {o : Options} {input : List UInt8} {blank : Msg} {s : State (g.terminal o)}

/-- However a schedule runs to where no thread can go on, the messages that have been
sent and not received are those of `Left`: none after an early end, and otherwise one
for each worker, and an ALLDONE where the board settles at the last generation. -/
theorem left_of_stuck (hfits : Fits g.lineSize g.columnSize)
    (hs : Transition.Reachable next (g.startTerminal o blank input) s)
    (hstuck : Transition.Stuck next s) :
    ∃ n box, g.Ends n ∧ Left g n box ∧
      ∀ b, s.deposited b = s.returned b ++ (box b).toList := by
  have hreach := (reachable_terminal_iff g o blank input _).mpr ⟨s, hs, rfl⟩
  have hgame := (terminalErasure g o).stuck_state hstuck
  have hexcl := (exclusive_start g blank).of_reachable hreach
  have ha := abstract_reachable (exclusive_start g blank) hreach
  obtain ⟨hinv, hmemo⟩ := facts_of_state hfits hs
  have hbox := deposited_of_stuck hexcl hgame hinv.lives.aborted
  have habove := fun b (hb : g.numberOfThreads < b) => box_above ha hb
  have hboards := hmemo.boards
  have hok := hinv.flow.mainOk
  rcases main_of_stuck hfits hs hstuck with ⟨n, al, hl⟩ | ⟨hlast, k, hl⟩
  · have hin : (s.loc .main).inGame = .finished n al := by rw [hl]; rfl
    have hm := abstract_main (g := g) (s := (terminalErasure g o).state s) hin (by simp [mainCode])
    rw [hm] at hboards hok
    exact ⟨n, _, ends_of_facts hok hboards.1 hboards.2.2,
      left_of_finished hinv hm hboards.2.2 habove, hbox⟩
  · have hblocked := blocked_of_stuck hreach hgame fun n al hfin => by
      have hin : (s.loc .main).inGame = .finished n al := hfin
      rw [hl] at hin
      contradiction
    obtain ⟨-, i, hm⟩ := join_of_blocked hblocked
    have hends : g.Ends g.numberOfGenerations := by
      refine ⟨.inl rfl, ?_⟩
      rintro m (rfl | hm)
      · exact le_rfl
      · exact hlast.2.2 hm
    exact ⟨_, _, hends, left_of_blocked hblocked hm hlast.2.1.2 habove, hbox⟩

/-- In the deadlock of `hook` a STOP is left for each worker, and an ALLDONE of one of
them. -/
theorem left_of_stuck_hook :
    ∃ schedule, ∃ s : State (hookThree.terminal ⟨true, false⟩),
      Transition.run next schedule
        (hookThree.startTerminal ⟨true, false⟩ (hookThree.uninit 0 0) []) = some s ∧
      Transition.Stuck next s ∧
      (∃ m, s.deposited 0 = s.returned 0 ++ [m] ∧ m.type = .allDone) ∧
      (∀ i ∈ hookThree.workers, ∃ m, s.deposited i = s.returned i ++ [m] ∧ m.type = .stop) ∧
      ∀ b, 2 < b → s.deposited b = s.returned b := by
  have hstart : Transition.run next []
      (hookThree.startTerminal ⟨true, false⟩ (hookThree.uninit 0 0) []) = some _ := rfl
  obtain ⟨schedule, s, hrun, hstuck⟩ := exists_complete hstart
  obtain ⟨n, box, hends, hleft, hbox⟩ :=
    left_of_stuck (by decide) (.of_run _ Relation.ReflTransGen.refl hrun) hstuck
  have hleast := isLeast_hook 3 (by decide)
  have hthree : hookThree.Settled 3 := hleast.1.2
  obtain rfl : n = 3 := by
    rcases hends.1 with hlast | hsettled
    · exact hlast
    · exact le_antisymm (hends.2 (.inl rfl)) (hleast.2 hsettled)
  obtain ⟨m, hm, htype⟩ := hleft.settled rfl hthree
  refine ⟨_, s, hrun, hstuck, ⟨m, ?_, htype⟩, fun i hi => ?_, fun b hb => ?_⟩
  · rw [hbox, hm]
    rfl
  · obtain ⟨m', hm', htype'⟩ := hleft.worker rfl i hi
    rw [if_pos hthree] at htype'
    exact ⟨m', by rw [hbox, hm']; rfl, htype'⟩
  · rw [hbox, hleft.above b hb]
    exact List.append_nil _

end Runs

end Life

end OperatingSystems
