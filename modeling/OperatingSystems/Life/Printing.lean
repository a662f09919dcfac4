import OperatingSystems.Life.GridSteps

/-!
# What main prints

`printMatrix(after)` puts out the cells of the board row by row, one cell a
step. No worker writes to `after` any more when it runs, so the cells put out
are those of the generation at which the game ended.
-/

namespace OperatingSystems

namespace Life

open OperatingSystems.Thread OperatingSystems.Mailbox

variable {g : Game}

section Rows

/-- The first cells of a row. -/
def rowCells (m : Grid) (line columns : ℕ) : List ℤ :=
  (List.range columns).map fun column : ℕ => cell m line column

/-- The rows above a line, one after the other. -/
def rowsAbove (columnSize : ℕ) (m : Grid) (lines : ℕ) : List ℤ :=
  (List.range lines).flatMap fun line => rowCells m line columnSize

/-- The numbers that `printMatrix` puts out. -/
def printMatrix (lineSize columnSize : ℕ) (m : Grid) : List ℤ :=
  rowsAbove columnSize m lineSize

theorem rowCells_succ (m : Grid) (line columns : ℕ) :
    rowCells m line (columns + 1) = rowCells m line columns ++ [cell m line columns] := by
  rw [rowCells, List.range_succ, List.map_append]
  rfl

theorem rowsAbove_succ (columnSize : ℕ) (m : Grid) (lines : ℕ) :
    rowsAbove columnSize m (lines + 1) =
      rowsAbove columnSize m lines ++ rowCells m lines columnSize := by
  rw [rowsAbove, List.range_succ, List.flatMap_append, List.flatMap_singleton]
  rfl

end Rows

/-- What has been put out when `main` is at a control point. -/
def Printed (g : Game) : MainLoc → List ℤ → Prop
  | .print cGen _ i j, out =>
      j ≤ g.columnSize ∧ i + (if j = 0 then 0 else 1) ≤ g.lineSize ∧
        out = rowsAbove g.columnSize (g.hist cGen) i ++ rowCells (g.hist cGen) i j
  | .join cGen _ _, out => out = printMatrix g.lineSize g.columnSize (g.hist cGen)
  | .finished cGen _, out => out = printMatrix g.lineSize g.columnSize (g.hist cGen)
  | _, out => out = []

section Steps

variable {s s' : View} {i : ℕ}

theorem Printed.start {out : List ℤ} (h : out = []) (cGen al : ℕ) :
    Printed g (.print cGen al 0 0) out :=
  ⟨Nat.zero_le _, Nat.zero_le _, h⟩

/-- Sending, receiving, creating and joining put nothing out. -/
theorem Printed.of_code {l : MainLoc} {out : List ℤ} (h : Printed g l out) :
    (∀ b m l', mainCode g l = .send b m l' → Printed g l' out) ∧
      (∀ b k m, mainCode g l = .recv b k → Printed g (k m) out) ∧
      (∀ u l', mainCode g l = .create u l' → Printed g l' out) ∧
      ∀ u l', mainCode g l = .join u l' → Printed g l' out := by
  refine ⟨?_, ?_, ?_, ?_⟩
  · intro b m l' hi
    cases l <;> simp only [mainCode] at hi
    all_goals
      repeat' split at hi
      all_goals first | contradiction | obtain ⟨rfl, rfl, rfl⟩ := Instr.send.inj hi
    all_goals exact h
  · intro b k m hi
    cases l <;> simp only [mainCode] at hi
    all_goals
      repeat' split at hi
      all_goals first | contradiction | obtain ⟨rfl, rfl⟩ := Instr.recv.inj hi
    dsimp only
    repeat' split
    all_goals exact h
  · intro u l' hi
    cases l <;> simp only [mainCode] at hi
    all_goals
      repeat' split at hi
      all_goals first | contradiction | obtain ⟨rfl, rfl⟩ := Instr.create.inj hi
    exact h
  · intro u l' hi
    cases l <;> simp only [mainCode] at hi
    all_goals
      repeat' split at hi
      all_goals first | contradiction | obtain ⟨rfl, rfl⟩ := Instr.join.inj hi
    exact h

/-- One cell of the board is put out, or a row is left. -/
theorem Printed.print {cGen al i j : ℕ} {mem : Memory} {f : Memory → Memory × MainLoc}
    (h : Printed g (.print cGen al i j) mem.printed)
    (hafter : SameBoard g.lineSize g.columnSize mem.after (g.hist cGen))
    (hi : mainCode g (.print cGen al i j) = .access f) :
    Printed g (f mem).2 (f mem).1.printed := by
  obtain ⟨hj, hline, hout⟩ := h
  rcases access_of_scan hi with ⟨hlt, hlt', rfl⟩ | ⟨hlt, hge, rfl⟩ | ⟨hge, hi⟩
  · refine ⟨hlt', by simpa using Nat.succ_le_of_lt hlt, ?_⟩
    dsimp only
    rw [hout, hafter i j hlt hlt', rowCells_succ, List.append_assoc]
  · obtain rfl : j = g.columnSize := by omega
    refine ⟨Nat.zero_le _, by simpa using Nat.succ_le_of_lt hlt, ?_⟩
    dsimp only
    rw [hout, rowsAbove_succ]
    simp [rowCells]
  · obtain rfl := Instr.access.inj hi
    obtain rfl : j = 0 := by
      by_contra hne
      rw [if_neg hne] at hline
      omega
    obtain rfl : i = g.lineSize := by
      rw [if_pos rfl] at hline
      omega
    change mem.printed = printMatrix g.lineSize g.columnSize (g.hist cGen)
    rw [hout, printMatrix, rowCells, List.range_zero, List.map_nil, List.append_nil]

theorem Printed.access (h : Printed g s.main s.mem.printed) (hm : Memo g s)
    {f : Memory → Memory × MainLoc} (hi : mainCode g s.main = .access f) :
    Printed g (f s.mem).2 (f s.mem).1.printed := by
  have hboards := hm.boards
  cases hl : s.main with
  | print cGen al i j =>
      rw [hl] at h hi hboards
      exact h.print hboards.2.1 hi
  | _ =>
      rw [hl] at h hi
      simp only [mainCode] at hi
      repeat' split at hi
      all_goals first
        | contradiction
        | (obtain rfl := Instr.access.inj hi; first | exact h | exact Printed.start h _ _)

theorem Printed.mainMove (h : Printed g s.main s.mem.printed) (hm : Memo g s)
    (hmove : MainMove g s s') : Printed g s'.main s'.mem.printed := by
  obtain ⟨hsend, hrecv, hcreate, hjoin⟩ := h.of_code
  cases hmove with
  | send b m l hi hb => exact hsend b m l hi
  | recv b l m hi hb => exact hrecv b l m hi
  | access f hi => exact h.access hm hi
  | create u l hi => exact hcreate u l hi
  | join u l hi hu => exact hjoin u l hi
  | exit hi => exact h

/-- A worker puts nothing out. -/
theorem printed_of_workerMove (hmove : WorkerMove g i s s') :
    s'.main = s.main ∧ s'.mem.printed = s.mem.printed := by
  cases hmove with
  | access f hi =>
      refine ⟨rfl, ?_⟩
      cases hl : s.worker i <;> rw [hl] at hi <;> simp only [linesthread] at hi
      all_goals
        repeat' split at hi
        all_goals first | contradiction | (obtain rfl := Instr.access.inj hi; rfl)
  | _ => exact ⟨rfl, rfl⟩

/-- What has been put out in every reachable state. -/
theorem printed_of_reachable (hfits : Fits g.lineSize g.columnSize) {blank : Msg}
    {a : Atomic g.program} (ha : Transition.Reachable atomicNext (g.init blank) a) :
    Printed g (view a).main (view a).mem.printed := by
  refine ha.invariant (I := fun a => Printed g (view a).main (view a).mem.printed) ?_ ?_
  · rw [Game.init, view_start]
    rfl
  · intro t a a' hreach h hnext
    obtain ⟨-, -, hmove⟩ := move_of_step hnext
    cases t with
    | main => exact h.mainMove (memo_of_reachable hfits hreach) hmove
    | worker i =>
        obtain ⟨hmain, hprinted⟩ := printed_of_workerMove hmove
        rwa [hmain, hprinted]

end Steps

end Life

end OperatingSystems
