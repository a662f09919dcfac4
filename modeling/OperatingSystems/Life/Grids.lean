import OperatingSystems.Life.History
import OperatingSystems.Life.Preservation

/-!
# What the two matrices hold

`Boards` says, for each place of `main`, which generation `before` and `after`
hold and what the tests of the generation loop have found so far. `RowOk` and
the cells already written say how far a worker has come with its rows. A worker
computes only while `main` waits for that very generation, so `before` is whole
whenever a worker reads it.
-/

namespace OperatingSystems

namespace Life

open OperatingSystems.Thread OperatingSystems.Mailbox

variable {g : Game}

section Memo

variable (g : Game)

/-- What `main` knows of the matrices. -/
def Boards : MainLoc → Memory → Prop
  | .create _, mem => mem.before = g.hist 0
  | .sendRange _, mem => mem.before = g.hist 0
  | .sendGo cGen _ _, mem => mem.before = g.hist cGen ∧ g.Unsettled cGen
  | .collect cGen _ _, mem => mem.before = g.hist cGen ∧ g.Unsettled cGen
  | .isAllZero cGen _ i j isZero, mem =>
      mem.before = g.hist (cGen - 1) ∧ g.Unsettled (cGen - 1) ∧
        SameBoard g.lineSize g.columnSize mem.after (g.hist cGen) ∧
        (isZero = true ↔ Scanned g.lineSize g.columnSize
          (fun line column => cell (g.hist cGen) line column = 0) i j)
  | .hasNotChanged cGen _ i j notChanged, mem =>
      mem.before = g.hist (cGen - 1) ∧ g.Unsettled (cGen - 1) ∧
        SameBoard g.lineSize g.columnSize mem.after (g.hist cGen) ∧
        ¬ AllZero g.lineSize g.columnSize (g.hist cGen) ∧
        (notChanged = true ↔ Scanned g.lineSize g.columnSize
          (fun line column =>
            cell (g.hist cGen) line column = cell (g.hist (cGen - 1)) line column) i j)
  | .updateMatrix cGen _ i j, mem =>
      g.Unsettled cGen ∧ SameBoard g.lineSize g.columnSize mem.after (g.hist cGen) ∧
        ∀ k, mem.before k =
          if OnBoard g.lineSize g.columnSize k ∧ Past i j (k / maxGrid) (k % maxGrid) then
            g.hist cGen k else g.hist (cGen - 1) k
  | .sendStop cGen _ _, mem =>
      g.Unsettled (cGen - 1) ∧ SameBoard g.lineSize g.columnSize mem.after (g.hist cGen) ∧
        g.Settled cGen
  | .print cGen allDoneCounter _ _, mem =>
      g.Unsettled (cGen - 1) ∧ SameBoard g.lineSize g.columnSize mem.after (g.hist cGen) ∧
        (allDoneCounter = 0 ↔ g.Settled cGen)
  | .join cGen allDoneCounter _, mem =>
      g.Unsettled (cGen - 1) ∧ SameBoard g.lineSize g.columnSize mem.after (g.hist cGen) ∧
        (allDoneCounter = 0 ↔ g.Settled cGen)
  | .finished cGen allDoneCounter, mem =>
      g.Unsettled (cGen - 1) ∧ SameBoard g.lineSize g.columnSize mem.after (g.hist cGen) ∧
        (allDoneCounter = 0 ↔ g.Settled cGen)

/-- Where a worker is in its rows, and its neighbor counter. -/
def RowOk (i : ℕ) : WorkerLoc → Prop
  | .row v line column => v.lineFrom ≤ line ∧ 0 ≤ column
  | .neighbor v line column k counter =>
      g.Owns i line ∧ 0 ≤ column ∧ column < g.columnSize ∧ k ≤ 8 ∧
        counter = neighborCount g.lineSize g.columnSize (g.hist (v.gen - 1)) line column k
  | _ => True

/-- The cells that a worker has written in the generation of its last GO. -/
def Written : WorkerLoc → ℤ → ℤ → Prop
  | .row _ i j, line, column => Past i j line column
  | .neighbor _ i j _ _, line, column => Past i j line column
  | _, _, _ => True

/-- The matrices at a state. -/
structure Memo (s : View) : Prop where
  boards : Boards g s.main s.mem
  row : ∀ i ∈ g.workers, RowOk g i (s.worker i)
  after : ∀ i ∈ g.workers, ∀ line column : ℤ, g.Owns i line → 0 ≤ column →
    column < g.columnSize → 1 ≤ (s.worker i).goRecvd → Written (s.worker i) line column →
      cell s.mem.after line column = cell (g.hist (s.worker i).goRecvd) line column

end Memo

section Phases

variable {s : View} {i : ℕ}

/-- A worker computes a generation only while `main` waits for it. -/
theorem Inv.main_of_computing (h : Inv g s) (hi : i ∈ g.workers)
    (hcomp : (s.worker i).computing = 1) :
    ∃ cGen al k, cGen + 1 = (s.worker i).gen ∧
      (s.main = .sendGo cGen al k ∨ s.main = .collect cGen al k) := by
  have hok := h.flow.mainOk
  have hloop := WorkerLoc.inBarrier_of_computing hcomp
  have hgenG := (h.flow.workerOk i hi).inLoop hloop
  have hgo := (h.flow.channel i hi).go
  have hfloor := h.flow.floor i hi
  have hend : (s.worker i).ended = 0 := by
    cases hw : s.worker i <;> simp_all [WorkerLoc.computing, WorkerLoc.ended]
  have hgen := (h.flow.workerOk i hi).one_le_gen
  simp only [WorkerLoc.goRecvd, hcomp] at hgo
  simp only [WorkerLoc.sent, hend] at hfloor
  cases hm : s.main with
  | sendGo cGen al k =>
      simp only [hm, MainLoc.goSentTo, MainLoc.rounds] at hgo hfloor
      refine ⟨cGen, al, k, ?_, .inl rfl⟩
      split at hgo <;> omega
  | collect cGen al k =>
      simp only [hm, MainLoc.goSentTo, MainLoc.rounds] at hgo hfloor
      exact ⟨cGen, al, k, by omega, .inr rfl⟩
  | print cGen al i j =>
      simp only [hm, MainLoc.goSentTo, MainLoc.rounds] at hgo hfloor
      obtain ⟨-, -, hal⟩ := hm ▸ hok
      split at hgo <;> omega
  | join cGen al k =>
      simp only [hm, MainLoc.goSentTo, MainLoc.rounds] at hgo hfloor
      obtain ⟨-, -, hal, -, -⟩ := hm ▸ hok
      split at hgo <;> omega
  | finished cGen al =>
      simp only [hm, MainLoc.goSentTo, MainLoc.rounds] at hgo hfloor
      obtain ⟨-, -, hal⟩ := hm ▸ hok
      split at hgo <;> omega
  | _ =>
      simp only [hm, MainLoc.goSentTo, MainLoc.rounds] at hgo hfloor
      omega

/-- The matrix that a worker reads is the whole of the generation before. -/
theorem Memo.before_of_computing (hm : Memo g s) (h : Inv g s) (hi : i ∈ g.workers)
    (hcomp : (s.worker i).computing = 1) : s.mem.before = g.hist ((s.worker i).gen - 1) := by
  obtain ⟨cGen, al, k, hgen, hmain⟩ := h.main_of_computing hi hcomp
  have hboards := hm.boards
  have hpred : (s.worker i).gen - 1 = cGen := by omega
  rw [hpred]
  rcases hmain with hmain | hmain <;> rw [hmain] at hboards <;> exact hboards.1

/-- Once every worker has answered for generation `n` and has not been asked for
more, `after` is generation `n`. -/
theorem Memo.after_of_sent (hm : Memo g s) (h : Inv g s) {n : ℕ} (hn : 1 ≤ n)
    (hnG : n ≤ g.numberOfGenerations) (hsent : ∀ i ∈ g.workers, n ≤ (s.worker i).sent)
    (hgo : ∀ i ∈ g.workers, (s.worker i).goRecvd ≤ n) :
    SameBoard g.lineSize g.columnSize s.mem.after (g.hist n) := by
  intro line column hline hcolumn
  obtain ⟨i, hi, howns⟩ := g.exists_owns (Int.natCast_nonneg line) (by exact_mod_cast hline)
  have hok := h.flow.workerOk i hi
  have hsent' := hsent i hi
  have hgo' := hgo i hi
  have hend : (s.worker i).ended = 0 ∨
      (s.worker i).ended = 1 ∧ (s.worker i).gen = g.numberOfGenerations + 1 := by
    have hle := (s.worker i).ended_le
    by_cases hzero : (s.worker i).ended = 0
    · exact .inl hzero
    · have hpassed := WorkerLoc.passed_of_ended hzero
      exact .inr ⟨by omega, hok.pastLoop
        (WorkerLoc.inBarrier_of_counted (WorkerLoc.counted_of_passed hpassed))⟩
  simp only [WorkerLoc.sent] at hsent'
  have hgoEq : (s.worker i).goRecvd = n ∧ (s.worker i).computing = 0 := by
    simp only [WorkerLoc.goRecvd] at hgo' ⊢
    omega
  obtain ⟨hgoEq, hcomp⟩ := hgoEq
  have hwritten : Written (s.worker i) line column := by
    cases hw : s.worker i <;> simp_all [Written, WorkerLoc.computing]
  have hcell := hm.after i hi line column howns (Int.natCast_nonneg column)
    (by exact_mod_cast hcolumn) (by omega) hwritten
  rw [hcell, hgoEq]

end Phases

section MainSteps

variable {s : View} {l : MainLoc} {mem : Memory}

/-- Sending, receiving, creating and joining leave the matrices alone. -/
theorem boards_of_code (h : Boards g l mem) :
    (∀ b m l', mainCode g l = .send b m l' → Boards g l' mem) ∧
      (∀ b k m, mainCode g l = .recv b k → Boards g (k m) mem) ∧
      (∀ u l', mainCode g l = .create u l' → Boards g l' mem) ∧
      ∀ u l', mainCode g l = .join u l' → Boards g l' mem := by
  refine ⟨?_, ?_, ?_, ?_⟩
  · intro b m l' hi
    cases l <;> simp only [mainCode] at hi
    all_goals
      repeat' split at hi
      all_goals first | contradiction | obtain ⟨rfl, rfl, rfl⟩ := Instr.send.inj hi
    · exact h
    · exact ⟨h, Game.unsettled_zero⟩
    · exact h
    · exact h
  · intro b k m hi
    cases l <;> simp only [mainCode] at hi
    all_goals
      repeat' split at hi
      all_goals first | contradiction | obtain ⟨rfl, rfl⟩ := Instr.recv.inj hi
    dsimp only
    repeat' split
    all_goals exact h
  · intro u l' hi
    cases l <;> simp only [mainCode] at hi
    all_goals
      repeat' split at hi
      all_goals first | contradiction | obtain ⟨rfl, rfl⟩ := Instr.create.inj hi
    exact h
  · intro u l' hi
    cases l <;> simp only [mainCode] at hi
    all_goals
      repeat' split at hi
      all_goals first | contradiction | obtain ⟨rfl, rfl⟩ := Instr.join.inj hi
    exact h

/-- `main` writes no cell of `after`. -/
theorem after_of_mainCode {f : Memory → Memory × MainLoc} (hi : mainCode g l = .access f)
    (mem : Memory) : (f mem).1.after = mem.after := by
  cases l <;> simp only [mainCode] at hi
  all_goals
    repeat' split at hi
    all_goals first | contradiction | (obtain rfl := Instr.access.inj hi; rfl)

/-- A worker changes `after` by storing the value of a cell. -/
theorem after_of_linesthread {i : ℕ} {l : WorkerLoc} {f : Memory → Memory × WorkerLoc}
    (hi : linesthread g i l = .access f) (mem : Memory) :
    (f mem).1.after = mem.after ∨ ∃ v line column k counter value,
      l = .neighbor v line column k counter ∧
        (f mem).1.after = store mem.after line column value := by
  cases l <;> simp only [linesthread] at hi
  case neighbor v line column k counter =>
    split at hi
    · obtain rfl := Instr.access.inj hi
      exact .inl rfl
    · obtain rfl := Instr.access.inj hi
      exact .inr ⟨v, line, column, k, counter, _, rfl, rfl⟩
  all_goals
    repeat' split at hi
    all_goals first | contradiction | (obtain rfl := Instr.access.inj hi; exact .inl rfl)

/-- No worker writes a cell of `before`. -/
theorem before_of_linesthread {i : ℕ} {l : WorkerLoc} {f : Memory → Memory × WorkerLoc}
    (hi : linesthread g i l = .access f) (mem : Memory) : (f mem).1.before = mem.before := by
  cases l <;> simp only [linesthread] at hi
  all_goals
    repeat' split at hi
    all_goals first | contradiction | (obtain rfl := Instr.access.inj hi; rfl)

/-- All workers have answered for the last generation. -/
theorem Memo.boards_collect_last (hm : Memo g s) (h : Inv g s) {cGen al k : ℕ}
    (hl : s.main = .collect cGen al k) (hal : al = g.numberOfThreads) :
    Boards g (.print cGen al 0 0) s.mem := by
  have hboards := hm.boards
  have hT := g.one_le_threads
  have hG := g.one_le_generations
  have hok := h.flow.mainOk
  rw [hl] at hboards hok
  obtain ⟨-, hunsettled⟩ := hboards
  obtain ⟨hc, -, -, hcount⟩ := hok
  have hlast : cGen = g.numberOfGenerations := by
    split at hcount <;> omega
  have hsettled := hunsettled cGen (by omega) (le_refl _)
  refine ⟨hunsettled.mono (by omega), ?_, iff_of_false (by omega) hsettled⟩
  refine hm.after_of_sent h (by omega) hc (fun i hi => ?_) fun i hi =>
    hlast ▸ (h.flow.workerOk i hi).goRecvd_le
  have hfloor := h.flow.floor i hi
  rwa [hl] at hfloor

/-- All workers have answered for a generation before the last. -/
theorem Memo.boards_collect_next (hm : Memo g s) (h : Inv g s) {cGen al k : ℕ}
    (hl : s.main = .collect cGen al k) (hk : g.numberOfThreads < k)
    (hal : al ≠ g.numberOfThreads) :
    Boards g (.isAllZero (cGen + 1) al 0 0 true) s.mem := by
  have hboards := hm.boards
  have hok := h.flow.mainOk
  have hcode : mainCode g s.main = goto (.isAllZero (cGen + 1) al 0 0 true) := by
    rw [hl]
    simp only [mainCode]
    rw [if_neg (by omega), if_neg hal]
  obtain ⟨hquiet, -⟩ := mainQuiet_of_access hok hcode s.mem
  rw [hl] at hboards hok
  obtain ⟨hbefore, hunsettled⟩ := hboards
  obtain ⟨hc, -, hk', hcount⟩ := hok
  have hlt : cGen < g.numberOfGenerations := by
    split at hcount <;> omega
  refine ⟨hbefore, hunsettled, ?_, iff_of_true rfl scanned_zero⟩
  refine hm.after_of_sent h (by omega) hlt (fun i hi => ?_) fun i hi => ?_
  · exact h.flow.floor_of_quiet h.barrier hquiet hi
  · have hgo := (h.flow.channel i hi).go
    rwa [hl] at hgo

/-- A cell that `isAllZero` looks at. -/
theorem boards_isAllZero {cGen al i j : ℕ} {isZero : Bool}
    (h : Boards g (.isAllZero cGen al i j isZero) mem) (hi : i < g.lineSize)
    (hj : j < g.columnSize) :
    Boards g (.isAllZero cGen al i (j + 1) (if cell mem.after i j ≠ 0 then false else isZero))
      mem := by
  obtain ⟨hbefore, hunsettled, hafter, hscan⟩ := h
  refine ⟨hbefore, hunsettled, hafter, ?_⟩
  rw [scanned_succ_column hi hj, ← hscan, hafter i j hi hj]
  by_cases hzero : cell (g.hist cGen) i j = 0 <;> simp [hzero]

/-- A cell that `hasNotChanged` looks at. -/
theorem boards_hasNotChanged {cGen al i j : ℕ} {notChanged : Bool}
    (h : Boards g (.hasNotChanged cGen al i j notChanged) mem) (hi : i < g.lineSize)
    (hj : j < g.columnSize) :
    Boards g (.hasNotChanged cGen al i (j + 1)
      (if cell mem.before i j ≠ cell mem.after i j then false else notChanged)) mem := by
  obtain ⟨hbefore, hunsettled, hafter, hzero, hscan⟩ := h
  refine ⟨hbefore, hunsettled, hafter, hzero, ?_⟩
  rw [scanned_succ_column hi hj, ← hscan, hafter i j hi hj, hbefore]
  by_cases heq : cell (g.hist cGen) i j = cell (g.hist (cGen - 1)) i j
  · simp [heq]
  · simp [heq, Ne.symm heq]

/-- The tests have found that the board has changed. -/
theorem boards_updateMatrix_start {cGen al i j : ℕ}
    (h : Boards g (.hasNotChanged cGen al i j false) mem) (hc : 1 ≤ cGen)
    (hi : g.lineSize ≤ i) : Boards g (.updateMatrix cGen al 0 0) mem := by
  obtain ⟨hbefore, hunsettled, hafter, hzero, hscan⟩ := h
  rw [scanned_all hi] at hscan
  have hsettled : ¬ g.Settled cGen := by
    rintro (hall | hsame)
    · exact hzero hall
    · exact Bool.false_ne_true (hscan.mpr fun line column hl hcol => hsame line column hl hcol)
  refine ⟨?_, hafter, fun k => ?_⟩
  · obtain ⟨c, rfl⟩ : ∃ c, cGen = c + 1 := ⟨cGen - 1, by omega⟩
    exact hunsettled.succ hsettled
  · rw [if_neg, hbefore]
    rintro ⟨⟨hline, -⟩, hpast⟩
    exact not_past_zero hline (Int.emod_nonneg _ (by simp [maxGrid])) hpast

/-- A cell that `updateMatrix` copies. -/
theorem boards_updateMatrix {cGen al i j : ℕ} (h : Boards g (.updateMatrix cGen al i j) mem)
    (hi : i < g.lineSize) (hj : j < g.columnSize) :
    Boards g (.updateMatrix cGen al i (j + 1))
      { mem with before := store mem.before i j (cell mem.after i j) } := by
  obtain ⟨hunsettled, hafter, hbefore⟩ := h
  refine ⟨hunsettled, hafter, fun k => ?_⟩
  have hcol := g.columnSize_le
  have hline := line_of_address i j (by omega) (by omega)
  have hcolumn := column_of_address i j (by omega) (by omega)
  push_cast
  by_cases hk : k = i * maxGrid + j
  · subst hk
    have hon := onBoard_address g.columnSize_le (Int.natCast_nonneg i) (by exact_mod_cast hi)
      (Int.natCast_nonneg j) (by exact_mod_cast hj)
    have hcell := hafter i j hi hj
    rw [if_pos ⟨hon, by rw [hline, hcolumn]; exact past_succ_column.mpr (.inr ⟨rfl, rfl⟩)⟩]
    simp only [store, Function.update_self]
    exact hcell
  · have hpast : Past i (j + 1) (k / maxGrid) (k % maxGrid) ↔
        Past i j (k / maxGrid) (k % maxGrid) := by
      rw [past_succ_column, or_iff_left]
      rintro ⟨hl, hc⟩
      exact hk (by rw [← hl, ← hc]; simp only [maxGrid]; omega)
    simp only [store, Function.update_of_ne hk, hpast]
    exact hbefore k

/-- `updateMatrix` goes on to the next row. -/
theorem boards_updateMatrix_line {cGen al i j : ℕ}
    (h : Boards g (.updateMatrix cGen al i j) mem) (hj : g.columnSize ≤ j) :
    Boards g (.updateMatrix cGen al (i + 1) 0) mem := by
  obtain ⟨hunsettled, hafter, hbefore⟩ := h
  refine ⟨hunsettled, hafter, fun k => ?_⟩
  rw [hbefore k]
  refine if_congr (and_congr_right fun hon => ?_) rfl rfl
  push_cast
  exact (past_succ_line (by exact_mod_cast hj) (Int.emod_nonneg _ (by simp [maxGrid]))
    hon.2.2).symm

/-- `updateMatrix` has copied the whole board. -/
theorem boards_updateMatrix_end {cGen al i j : ℕ} (hc : 1 ≤ cGen)
    (h : Boards g (.updateMatrix cGen al i j) mem) (hi : g.lineSize ≤ i) :
    Boards g (.sendGo cGen al 1) mem := by
  obtain ⟨hunsettled, hafter, hbefore⟩ := h
  refine ⟨funext fun k => ?_, hunsettled⟩
  obtain ⟨c, rfl⟩ : ∃ c, cGen = c + 1 := ⟨cGen - 1, by omega⟩
  rw [hbefore k]
  by_cases hon : OnBoard g.lineSize g.columnSize k
  · have hlt := hon.2.1
    rw [if_pos ⟨hon, .inl (by omega)⟩]
  · rw [if_neg fun hand => hon hand.1]
    exact (g.hist_succ_of_not_onBoard c hon).symm

/-- What `main` knows of the matrices after it has used the shared memory. -/
theorem Memo.boards_of_access (hm : Memo g s) (h : Inv g s) {f : Memory → Memory × MainLoc}
    (hi : mainCode g s.main = .access f) : Boards g (f s.mem).2 (f s.mem).1 := by
  have hboards := hm.boards
  have hok := h.flow.mainOk
  have hT := g.one_le_threads
  cases hl : s.main with
  | collect cGen al k =>
      have hi' := hi
      rw [hl] at hi'
      simp only [mainCode] at hi'
      split at hi'
      · contradiction
      · rename_i hk
        split at hi'
        · rename_i hal
          obtain rfl := Instr.access.inj hi'
          exact hm.boards_collect_last h hl hal
        · rename_i hal
          obtain rfl := Instr.access.inj hi'
          exact hm.boards_collect_next h hl (by omega) hal
  | isAllZero cGen al i j isZero =>
      rw [hl] at hi hboards
      rcases access_of_scan hi with ⟨hlt, hj, rfl⟩ | ⟨hlt, hj, rfl⟩ | ⟨hge, hi⟩
      · exact boards_isAllZero hboards hlt hj
      · obtain ⟨hbefore, hunsettled, hafter, hscan⟩ := hboards
        exact ⟨hbefore, hunsettled, hafter, hscan.trans (scanned_succ_line hj).symm⟩
      · obtain ⟨hbefore, hunsettled, hafter, hscan⟩ := hboards
        rw [scanned_all hge] at hscan
        split at hi
        · rename_i hzero
          obtain rfl := Instr.access.inj hi
          exact ⟨hunsettled, hafter, .inl (hscan.mp hzero)⟩
        · rename_i hzero
          obtain rfl := Instr.access.inj hi
          exact ⟨hbefore, hunsettled, hafter, fun hall => hzero (hscan.mpr hall),
            iff_of_true rfl scanned_zero⟩
  | hasNotChanged cGen al i j notChanged =>
      rw [hl] at hi hboards hok
      rcases access_of_scan hi with ⟨hlt, hj, rfl⟩ | ⟨hlt, hj, rfl⟩ | ⟨hge, hi⟩
      · exact boards_hasNotChanged hboards hlt hj
      · obtain ⟨hbefore, hunsettled, hafter, hzero, hscan⟩ := hboards
        exact ⟨hbefore, hunsettled, hafter, hzero, hscan.trans (scanned_succ_line hj).symm⟩
      · split at hi
        · rename_i hsame
          obtain rfl := Instr.access.inj hi
          obtain ⟨hbefore, hunsettled, hafter, hzero, hscan⟩ := hboards
          rw [scanned_all hge] at hscan
          exact ⟨hunsettled, hafter, .inr (hscan.mp hsame)⟩
        · rename_i hsame
          obtain rfl := Instr.access.inj hi
          obtain rfl : notChanged = false := by simpa using hsame
          exact boards_updateMatrix_start hboards hok.1 hge
  | updateMatrix cGen al i j =>
      rw [hl] at hi hboards hok
      obtain ⟨hc, -, rfl⟩ := hok
      rcases access_of_scan hi with ⟨hlt, hj, rfl⟩ | ⟨hlt, hj, rfl⟩ | ⟨hge, hi⟩
      · exact boards_updateMatrix hboards hlt hj
      · exact boards_updateMatrix_line hboards hj
      · split at hi
        · omega
        · obtain rfl := Instr.access.inj hi
          exact boards_updateMatrix_end hc hboards hge
  | sendStop cGen al k =>
      rw [hl] at hi hboards hok
      obtain ⟨-, -, rfl, -, -⟩ := hok
      simp only [mainCode] at hi
      split at hi
      · contradiction
      · obtain rfl := Instr.access.inj hi
        exact ⟨hboards.1, hboards.2.1, iff_of_true rfl hboards.2.2⟩
  | _ =>
      rw [hl] at hi hboards
      simp only [mainCode] at hi
      repeat' split at hi
      all_goals first | contradiction | (obtain rfl := Instr.access.inj hi; exact hboards)

end MainSteps

end Life

end OperatingSystems
