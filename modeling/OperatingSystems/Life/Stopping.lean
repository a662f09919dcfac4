import OperatingSystems.Life.Grids

/-!
# When main stops the game

The two tests of `main` look at the matrices as the workers have left them, on every
board. No worker computes while `main` tests, prints or joins, so what the tests have
found stays true of the matrices to the end. Once `main` is at its tests with a board
that is all zero or has not changed, it goes on to the end without another generation.
-/

namespace OperatingSystems

namespace Life

open OperatingSystems.Thread

variable {g : Game}

section Tests

/-- What one of the two tests finds: `after` is all zero or the same as `before`. -/
def Game.Stops (g : Game) (mem : Memory) : Prop :=
  AllZero g.lineSize g.columnSize mem.after ∨
    SameBoard g.lineSize g.columnSize mem.after mem.before

/-- What the tests have found so far. -/
def Tested (g : Game) : MainLoc → Memory → Prop
  | .isAllZero _ _ i j isZero, mem =>
      isZero = true ↔ Scanned g.lineSize g.columnSize
        (fun line column => cell mem.after line column = 0) i j
  | .hasNotChanged _ _ i j notChanged, mem =>
      ¬ AllZero g.lineSize g.columnSize mem.after ∧
        (notChanged = true ↔ Scanned g.lineSize g.columnSize
          (fun line column => cell mem.after line column = cell mem.before line column) i j)
  | .sendStop _ _ _, mem => g.Stops mem
  | .print _ allDoneCounter _ _, mem => allDoneCounter = 0 → g.Stops mem
  | .join _ allDoneCounter _, mem => allDoneCounter = 0 → g.Stops mem
  | .finished _ allDoneCounter, mem => allDoneCounter = 0 → g.Stops mem
  | _, _ => True

/-- `main` is at the tests of generation `n` or past them, and has not gone on to another
generation. -/
def MainLoc.Stopping (n : ℕ) : MainLoc → Prop
  | .isAllZero cGen allDoneCounter _ _ _ => cGen = n ∧ allDoneCounter = 0
  | .hasNotChanged cGen allDoneCounter _ _ _ => cGen = n ∧ allDoneCounter = 0
  | .sendStop cGen allDoneCounter _ => cGen = n ∧ allDoneCounter = 0
  | .print cGen allDoneCounter _ _ => cGen = n ∧ allDoneCounter = 0
  | .join cGen allDoneCounter _ => cGen = n ∧ allDoneCounter = 0
  | .finished cGen allDoneCounter => cGen = n ∧ allDoneCounter = 0
  | _ => False

/-- The same two matrices. -/
def Memory.SameMatrices (mem mem' : Memory) : Prop :=
  mem'.before = mem.before ∧ mem'.after = mem.after

variable {l : MainLoc} {mem mem' : Memory} {n : ℕ}

theorem Memory.SameMatrices.refl (mem : Memory) : mem.SameMatrices mem := ⟨rfl, rfl⟩

theorem Game.Stops.congr (h : g.Stops mem) (hsame : mem.SameMatrices mem') : g.Stops mem' := by
  rw [Game.Stops, hsame.1, hsame.2]
  exact h

theorem Tested.congr (h : Tested g l mem) (hsame : mem.SameMatrices mem') :
    Tested g l mem' := by
  cases l <;> first
    | trivial
    | simpa only [Tested, Game.Stops, hsame.1, hsame.2] using h

/-- A cell that `isAllZero` looks at. -/
theorem tested_isAllZero {cGen al i j : ℕ} {isZero : Bool}
    (h : Tested g (.isAllZero cGen al i j isZero) mem) (hi : i < g.lineSize)
    (hj : j < g.columnSize) :
    Tested g (.isAllZero cGen al i (j + 1) (if cell mem.after i j ≠ 0 then false else isZero))
      mem := by
  simp only [Tested] at h ⊢
  rw [scanned_succ_column hi hj, ← h]
  by_cases hzero : cell mem.after i j = 0 <;> simp [hzero]

/-- A cell that `hasNotChanged` looks at. -/
theorem tested_hasNotChanged {cGen al i j : ℕ} {notChanged : Bool}
    (h : Tested g (.hasNotChanged cGen al i j notChanged) mem) (hi : i < g.lineSize)
    (hj : j < g.columnSize) :
    Tested g (.hasNotChanged cGen al i (j + 1)
      (if cell mem.before i j ≠ cell mem.after i j then false else notChanged)) mem := by
  obtain ⟨hzero, hscan⟩ := h
  refine ⟨hzero, ?_⟩
  rw [scanned_succ_column hi hj, ← hscan]
  by_cases heq : cell mem.after i j = cell mem.before i j
  · simp [heq]
  · simp [heq, Ne.symm heq]

/-- The steps of `main` on the memory keep to what the tests have found. -/
theorem Tested.access (h : Tested g l mem) (hok : MainOk g l)
    {f : Memory → Memory × MainLoc} (hi : mainCode g l = .access f) :
    Tested g (f mem).2 (f mem).1 := by
  have hT := g.one_le_threads
  have hall : ∀ {cGen al : ℕ}, al = g.numberOfThreads → Tested g (.print cGen al 0 0) mem :=
    fun hal hzero => absurd hzero (by omega)
  cases l with
  | collect cGen al i =>
      simp only [mainCode] at hi
      (repeat' split at hi) <;> first | contradiction | obtain rfl := Instr.access.inj hi
      · rename_i hal
        exact hall hal
      · exact iff_of_true rfl scanned_zero
  | isAllZero cGen al i j isZero =>
      rcases access_of_scan hi with ⟨hlt, hj, rfl⟩ | ⟨hlt, hj, rfl⟩ | ⟨hge, hi⟩
      · exact tested_isAllZero h hlt hj
      · exact h.trans (scanned_succ_line hj).symm
      · simp only [Tested] at h
        rw [scanned_all hge] at h
        split at hi
        · rename_i hzero
          obtain rfl := Instr.access.inj hi
          exact .inl (h.mp hzero)
        · rename_i hzero
          obtain rfl := Instr.access.inj hi
          exact ⟨fun hall => hzero (h.mpr hall), iff_of_true rfl scanned_zero⟩
  | hasNotChanged cGen al i j notChanged =>
      rcases access_of_scan hi with ⟨hlt, hj, rfl⟩ | ⟨hlt, hj, rfl⟩ | ⟨hge, hi⟩
      · exact tested_hasNotChanged h hlt hj
      · exact ⟨h.1, h.2.trans (scanned_succ_line hj).symm⟩
      · obtain ⟨hzero, hscan⟩ := h
        rw [scanned_all hge] at hscan
        split at hi
        · rename_i hsame
          obtain rfl := Instr.access.inj hi
          exact .inr (hscan.mp hsame)
        · obtain rfl := Instr.access.inj hi
          trivial
  | updateMatrix cGen al i j =>
      have hal : al = 0 := hok.2.2
      rcases access_of_scan hi with ⟨-, -, rfl⟩ | ⟨-, -, rfl⟩ | ⟨-, hi⟩
      · trivial
      · trivial
      · rw [if_neg (by omega)] at hi
        obtain rfl := Instr.access.inj hi
        trivial
  | _ =>
      simp only [mainCode] at hi
      repeat' split at hi
      all_goals
        first
          | contradiction
          | (obtain rfl := Instr.access.inj hi; first | trivial | exact h | exact fun _ => h)

/-- Where the tests stop the game, `main` does not go on to another generation. -/
theorem MainLoc.Stopping.access (hl : l.Stopping n) (h : Tested g l mem) (hstops : g.Stops mem)
    {f : Memory → Memory × MainLoc} (hi : mainCode g l = .access f) :
    (f mem).2.Stopping n ∧ mem.SameMatrices (f mem).1 := by
  cases l with
  | isAllZero cGen al i j isZero =>
      rcases access_of_scan hi with ⟨-, -, rfl⟩ | ⟨-, -, rfl⟩ | ⟨-, hi⟩
      · exact ⟨hl, .refl mem⟩
      · exact ⟨hl, .refl mem⟩
      · split at hi <;> obtain rfl := Instr.access.inj hi <;> exact ⟨hl, .refl mem⟩
  | hasNotChanged cGen al i j notChanged =>
      rcases access_of_scan hi with ⟨-, -, rfl⟩ | ⟨-, -, rfl⟩ | ⟨hge, hi⟩
      · exact ⟨hl, .refl mem⟩
      · exact ⟨hl, .refl mem⟩
      · obtain ⟨hzero, hscan⟩ := h
        rw [scanned_all hge] at hscan
        split at hi
        · obtain rfl := Instr.access.inj hi
          exact ⟨hl, .refl mem⟩
        · rename_i hchanged
          exact absurd (hscan.mpr (hstops.resolve_left hzero)) hchanged
  | print cGen al i j =>
      rcases access_of_scan hi with ⟨-, -, rfl⟩ | ⟨-, -, rfl⟩ | ⟨-, hi⟩
      · exact ⟨hl, rfl, rfl⟩
      · exact ⟨hl, .refl mem⟩
      · obtain rfl := Instr.access.inj hi
        exact ⟨hl, .refl mem⟩
  | sendStop cGen al i =>
      simp only [mainCode] at hi
      split at hi
      · contradiction
      · obtain rfl := Instr.access.inj hi
        exact ⟨hl, .refl mem⟩
  | join cGen al i =>
      simp only [mainCode] at hi
      split at hi
      · contradiction
      · obtain rfl := Instr.access.inj hi
        exact ⟨hl, .refl mem⟩
  | finished cGen al => simp [mainCode] at hi
  | _ => exact hl.elim

/-- Before `main` comes to its tests it collects, and from then on it leaves the matrices
alone. -/
theorem MainLoc.Stopping.of_access {f : Memory → Memory × MainLoc} (hok : MainOk g l)
    (hi : mainCode g l = .access f) (hl : (f mem).2.Stopping n) :
    (f mem).2 = .isAllZero n 0 0 0 true ∨ l.Stopping n ∧ mem.SameMatrices (f mem).1 := by
  have hT := g.one_le_threads
  cases l with
  | collect cGen al i =>
      simp only [mainCode] at hi
      (repeat' split at hi) <;> first | contradiction | obtain rfl := Instr.access.inj hi
      · obtain ⟨-, rfl⟩ := hl
        omega
      · obtain ⟨rfl, rfl⟩ := hl
        exact .inl rfl
  | updateMatrix cGen al i j =>
      have hal : al = 0 := hok.2.2
      rcases access_of_scan hi with ⟨-, -, rfl⟩ | ⟨-, -, rfl⟩ | ⟨-, hi⟩
      · exact hl.elim
      · exact hl.elim
      · rw [if_neg (by omega)] at hi
        obtain rfl := Instr.access.inj hi
        exact hl.elim
  | _ =>
      simp only [mainCode] at hi
      repeat' split at hi
      all_goals
        first
          | contradiction
          | (obtain rfl := Instr.access.inj hi
             first | exact hl.elim | exact .inr ⟨hl, rfl, rfl⟩)

/-- Sending, receiving, creating and joining neither begin nor end the tests. -/
theorem stopping_of_code (g : Game) (l : MainLoc) (n : ℕ) :
    (∀ b m l', mainCode g l = .send b m l' → (l'.Stopping n ↔ l.Stopping n)) ∧
      (∀ b k m, mainCode g l = .recv b k → ((k m).Stopping n ↔ l.Stopping n)) ∧
      (∀ u l', mainCode g l = .create u l' → (l'.Stopping n ↔ l.Stopping n)) ∧
      ∀ u l', mainCode g l = .join u l' → (l'.Stopping n ↔ l.Stopping n) := by
  refine ⟨?_, ?_, ?_, ?_⟩
  · intro b m l' hi
    cases l <;> simp only [mainCode] at hi
    all_goals
      repeat' split at hi
      all_goals first | contradiction | (obtain ⟨rfl, rfl, rfl⟩ := Instr.send.inj hi; exact Iff.rfl)
  · intro b k m hi
    cases l <;> simp only [mainCode] at hi
    all_goals
      repeat' split at hi
      all_goals first | contradiction | obtain ⟨rfl, rfl⟩ := Instr.recv.inj hi
    dsimp only
    (repeat' split) <;> exact Iff.rfl
  · intro u l' hi
    cases l <;> simp only [mainCode] at hi
    all_goals
      repeat' split at hi
      all_goals first | contradiction | (obtain ⟨rfl, rfl⟩ := Instr.create.inj hi; exact Iff.rfl)
  · intro u l' hi
    cases l <;> simp only [mainCode] at hi
    all_goals
      repeat' split at hi
      all_goals first | contradiction | (obtain ⟨rfl, rfl⟩ := Instr.join.inj hi; exact Iff.rfl)

end Tests

section Moves

variable {s s' : View} {i n : ℕ}

/-- A worker writes a cell only while `main` waits for its generation. -/
theorem sameMatrices_of_workerMove (h : Inv g s) (hi : i ∈ g.workers)
    (hmove : WorkerMove g i s s') :
    s.mem.SameMatrices s'.mem ∨
      ∃ cGen al k, s.main = .sendGo cGen al k ∨ s.main = .collect cGen al k := by
  cases hmove with
  | access f hcode =>
      rcases after_of_linesthread hcode s.mem with heq | ⟨v, line, column, k, c, value, hw, -⟩
      · exact .inl ⟨before_of_linesthread hcode s.mem, heq⟩
      · obtain ⟨cGen, al, k', -, hmain⟩ :=
          h.main_of_computing hi (by rw [hw]; rfl : (s.worker i).computing = 1)
        exact .inr ⟨cGen, al, k', hmain⟩
  | _ => exact .inl (.refl _)

theorem Tested.workerMove (ht : Tested g s.main s.mem) (h : Inv g s) (hi : i ∈ g.workers)
    (hmove : WorkerMove g i s s') : Tested g s'.main s'.mem := by
  rw [main_of_workerMove hmove]
  rcases sameMatrices_of_workerMove h hi hmove with hsame | ⟨cGen, al, k, hmain⟩
  · exact ht.congr hsame
  · rcases hmain with hmain | hmain <;> rw [hmain] <;> trivial

theorem Tested.mainMove (ht : Tested g s.main s.mem) (h : Inv g s) (hmove : MainMove g s s') :
    Tested g s'.main s'.mem := by
  cases hmove with
  | access f hi => exact ht.access h.flow.mainOk hi
  | send b m l hi hb =>
      dsimp only
      cases hm : s.main <;> rw [hm] at hi ht <;> simp only [mainCode] at hi
      all_goals
        repeat' split at hi
        all_goals first | contradiction | (obtain ⟨rfl, rfl, rfl⟩ := Instr.send.inj hi)
        all_goals trivial
  | recv b k m hi hb =>
      dsimp only
      cases hm : s.main <;> rw [hm] at hi <;> simp only [mainCode] at hi
      all_goals
        repeat' split at hi
        all_goals first | contradiction | obtain ⟨rfl, rfl⟩ := Instr.recv.inj hi
      dsimp only
      (repeat' split) <;> trivial
  | create u l hi =>
      dsimp only
      cases hm : s.main <;> rw [hm] at hi <;> simp only [mainCode] at hi
      all_goals
        repeat' split at hi
        all_goals first | contradiction | (obtain ⟨rfl, rfl⟩ := Instr.create.inj hi; trivial)
  | join u l hi hu =>
      dsimp only
      cases hm : s.main <;> rw [hm] at hi ht <;> simp only [mainCode] at hi
      all_goals
        repeat' split at hi
        all_goals first | contradiction | (obtain ⟨rfl, rfl⟩ := Instr.join.inj hi; exact ht)
  | exit hi => exact ht

/-- The steps of `main` where its tests stop the game. -/
theorem MainLoc.Stopping.mainMove (hl : s.main.Stopping n) (ht : Tested g s.main s.mem)
    (hstops : g.Stops s.mem) (hmove : MainMove g s s') :
    s'.main.Stopping n ∧ s.mem.SameMatrices s'.mem := by
  obtain ⟨hsend, hrecv, hcreate, hjoin⟩ := stopping_of_code g s.main n
  cases hmove with
  | access f hi => exact hl.access ht hstops hi
  | send b m l hi hb => exact ⟨(hsend b m l hi).mpr hl, .refl _⟩
  | recv b k m hi hb => exact ⟨(hrecv b k m hi).mpr hl, .refl _⟩
  | create u l hi => exact ⟨(hcreate u l hi).mpr hl, .refl _⟩
  | join u l hi hu => exact ⟨(hjoin u l hi).mpr hl, .refl _⟩
  | exit hi => exact ⟨hl, .refl _⟩

/-- How `main` has come to where its tests stop the game. -/
theorem MainLoc.Stopping.of_mainMove (h : Inv g s) (hmove : MainMove g s s')
    (hl : s'.main.Stopping n) :
    s'.main = .isAllZero n 0 0 0 true ∨ s.main.Stopping n ∧ s.mem.SameMatrices s'.mem := by
  obtain ⟨hsend, hrecv, hcreate, hjoin⟩ := stopping_of_code g s.main n
  cases hmove with
  | access f hi => exact MainLoc.Stopping.of_access h.flow.mainOk hi hl
  | send b m l hi hb => exact .inr ⟨(hsend b m l hi).mp hl, .refl _⟩
  | recv b k m hi hb => exact .inr ⟨(hrecv b k m hi).mp hl, .refl _⟩
  | create u l hi => exact .inr ⟨(hcreate u l hi).mp hl, .refl _⟩
  | join u l hi hu => exact .inr ⟨(hjoin u l hi).mp hl, .refl _⟩
  | exit hi => exact .inr ⟨hl, .refl _⟩

/-- A step of a worker leaves the matrices alone once `main` is at its tests. -/
theorem MainLoc.Stopping.workerMove (hl : s.main.Stopping n) (h : Inv g s) (hi : i ∈ g.workers)
    (hmove : WorkerMove g i s s') :
    s'.main.Stopping n ∧ s.mem.SameMatrices s'.mem := by
  refine ⟨main_of_workerMove hmove ▸ hl, ?_⟩
  refine (sameMatrices_of_workerMove h hi hmove).resolve_right ?_
  rintro ⟨cGen, al, k, hmain⟩
  rcases hmain with hmain | hmain <;> rw [hmain] at hl <;> exact hl.elim

end Moves

section Runs

variable {blank : Msg} {a a₀ : Atomic g.program} {n : ℕ}

theorem tested_of_reachable (ha : Transition.Reachable atomicNext (g.init blank) a) :
    Tested g (view a).main (view a).mem := by
  refine ha.invariant (I := fun a => Tested g (view a).main (view a).mem) ?_ ?_
  · rw [Game.init, view_start]
    trivial
  · intro t a a' hreach ht hnext
    have hinv := inv_of_reachable hreach
    obtain ⟨-, hrun, hmove⟩ := move_of_step hnext
    cases t with
    | main => exact ht.mainMove hinv hmove
    | worker i => exact ht.workerMove hinv (hinv.lives.mem_workers hinv.flow.mainOk hrun) hmove

/-- `main` has come through its tests, with the matrices that it still has. -/
theorem exists_tests_of_stopping (ha : Transition.Reachable atomicNext (g.init blank) a)
    (hl : (view a).main.Stopping n) :
    ∃ a₀, Transition.Reachable atomicNext (g.init blank) a₀ ∧
      (view a₀).main = .isAllZero n 0 0 0 true ∧ (view a₀).mem.SameMatrices (view a).mem := by
  revert hl
  refine ha.invariant (I := fun a => (view a).main.Stopping n →
    ∃ a₀, Transition.Reachable atomicNext (g.init blank) a₀ ∧
      (view a₀).main = .isAllZero n 0 0 0 true ∧ (view a₀).mem.SameMatrices (view a).mem) ?_ ?_
  · rw [Game.init, view_start]
    exact False.elim
  · intro t a a' hreach ih hnext hl
    have hinv := inv_of_reachable hreach
    obtain ⟨-, hrun, hmove⟩ := move_of_step hnext
    have hback : (view a').main = .isAllZero n 0 0 0 true ∨
        (view a).main.Stopping n ∧ (view a).mem.SameMatrices (view a').mem := by
      cases t with
      | main => exact hl.of_mainMove hinv hmove
      | worker i =>
          have hl' : (view a).main.Stopping n := main_of_workerMove hmove ▸ hl
          have hi := hinv.lives.mem_workers hinv.flow.mainOk hrun
          exact .inr ⟨hl', (hl'.workerMove hinv hi hmove).2⟩
    rcases hback with hmain | ⟨hl', hsame⟩
    · exact ⟨a', hreach.tail ⟨t, hnext⟩, hmain, .refl _⟩
    · obtain ⟨a₀, ha₀, hmain, hsame'⟩ := ih hl'
      exact ⟨a₀, ha₀, hmain, hsame.1.trans hsame'.1, hsame.2.trans hsame'.2⟩

/-- Where the tests of generation `n` stop the game, no run goes on to another. -/
theorem stopping_of_reachable (ha₀ : Transition.Reachable atomicNext (g.init blank) a₀)
    (ha : Transition.Reachable atomicNext a₀ a) (hl : (view a₀).main.Stopping n)
    (hstops : g.Stops (view a₀).mem) : (view a).main.Stopping n := by
  refine (ha.invariant (I := fun a => (view a).main.Stopping n ∧ g.Stops (view a).mem)
    ⟨hl, hstops⟩ ?_).1
  rintro t a a' hreach ⟨hl, hstops⟩ hnext
  have hreach' := ha₀.trans hreach
  have hinv := inv_of_reachable hreach'
  obtain ⟨-, hrun, hmove⟩ := move_of_step hnext
  cases t with
  | main =>
      obtain ⟨hl', hsame⟩ := hl.mainMove (tested_of_reachable hreach') hstops hmove
      exact ⟨hl', hstops.congr hsame⟩
  | worker i =>
      have hi := hinv.lives.mem_workers hinv.flow.mainOk hrun
      obtain ⟨hl', hsame⟩ := hl.workerMove hinv hi hmove
      exact ⟨hl', hstops.congr hsame⟩

end Runs

end Life

end OperatingSystems
