import OperatingSystems.Life.Refinement
import OperatingSystems.Life.Rounds
import OperatingSystems.Life.Terminal

/-!
# What a game writes

Everything that `main` writes at a terminal is known from the sequential game: the
generations that it shows before its rounds, one for each round it begins, and at
the end the number of generations with the last board. A game that does not settle
begins one round more than it has generations, in which its workers say ALLDONE, so
its last board is shown twice.
-/

namespace OperatingSystems

namespace Life

open OperatingSystems.Thread OperatingSystems.Mailbox OperatingSystems.Output

section Texts

/-- The first cells of a row, as they are written. -/
def rowText (m : Grid) (line columns : ℕ) : List UInt8 :=
  (List.range columns).flatMap fun column : ℕ => cellText (cell m line column)

/-- The rows above a line, as they are written. -/
def rowsText (columnSize : ℕ) (m : Grid) (lines : ℕ) : List UInt8 :=
  (List.range lines).flatMap fun line => rowText m line columnSize ++ [10]

/-- What `printMatrix` writes. -/
def matrixText (lineSize columnSize : ℕ) (m : Grid) : List UInt8 :=
  rowsText columnSize m lineSize

theorem rowText_succ (m : Grid) (line columns : ℕ) :
    rowText m line (columns + 1) =
      rowText m line columns ++ cellText (cell m line columns) := by
  rw [rowText, List.range_succ, List.flatMap_append, List.flatMap_singleton]
  rfl

theorem rowsText_succ (columnSize : ℕ) (m : Grid) (lines : ℕ) :
    rowsText columnSize m (lines + 1) =
      rowsText columnSize m lines ++ (rowText m lines columnSize ++ [10]) := by
  rw [rowsText, List.range_succ, List.flatMap_append, List.flatMap_singleton]
  rfl

/-- Part of the rows, and part of the row after them. -/
theorem rowsText_isPrefix {columnSize lineSize i j : ℕ} {m : Grid} (hj : j ≤ columnSize)
    (hi : i + (if j = 0 then 0 else 1) ≤ lineSize) :
    rowsText columnSize m i ++ rowText m i j <+: matrixText lineSize columnSize m := by
  have hmono : ∀ {k n : ℕ}, k ≤ n → rowsText columnSize m k <+: rowsText columnSize m n := by
    intro k n hkn
    induction n, hkn using Nat.le_induction with
    | base => exact List.prefix_rfl
    | succ n _ ih =>
        rw [rowsText_succ]
        exact ih.trans (List.prefix_append _ _)
  have hrow : ∀ {k n : ℕ}, k ≤ n → rowText m i k <+: rowText m i n := by
    intro k n hkn
    induction n, hkn using Nat.le_induction with
    | base => exact List.prefix_rfl
    | succ n _ ih =>
        rw [rowText_succ]
        exact ih.trans (List.prefix_append _ _)
  by_cases hzero : j = 0
  · subst hzero
    rw [rowText, List.range_zero, List.flatMap_nil, List.append_nil]
    exact hmono hi
  · rw [if_neg hzero] at hi
    refine List.IsPrefix.trans ?_ (hmono hi)
    rw [rowsText_succ]
    exact List.prefix_append_right_inj _ |>.mpr ((hrow hj).trans (List.prefix_append _ _))

end Texts

section Transcript

variable (g : Game) (o : Options)

/-- What `main` shows of generation `n`. -/
def Game.shows (n : ℕ) : List UInt8 :=
  generationLine n ++ matrixText g.lineSize g.columnSize (g.hist n) ++ [10]

/-- What `main` shows in its first rounds. -/
def Game.shown (rounds : ℕ) : List UInt8 :=
  if o.isPrint then (List.range rounds).flatMap g.shows else []

/-- The number of generations and the last board. -/
def Game.ending (n : ℕ) : List UInt8 :=
  endLine n ++ matrixText g.lineSize g.columnSize (g.hist n)

/-- The rounds that a game of `n` generations begins. -/
def Game.roundsBegun (n : ℕ) : ℕ := if g.Settled n then n else n + 1

/-- All that a game of `n` generations writes. -/
def Game.transcript (n : ℕ) : List UInt8 := g.shown o (g.roundsBegun n) ++ g.ending n

/-- The input that is left after some rounds. -/
def unread (input : List UInt8) (rounds : ℕ) : List UInt8 :=
  if o.isInput then input.drop rounds else input

variable {g}

theorem Game.shown_succ (n : ℕ) :
    g.shown o (n + 1) = g.shown o n ++ if o.isPrint then g.shows n else [] := by
  unfold Game.shown
  split
  · rw [List.range_succ, List.flatMap_append, List.flatMap_singleton]
  · rfl

theorem Game.shown_isPrefix {m n : ℕ} (h : m ≤ n) : g.shown o m <+: g.shown o n := by
  induction n, h using Nat.le_induction with
  | base => exact List.prefix_rfl
  | succ n _ ih =>
      rw [Game.shown_succ]
      exact ih.trans (List.prefix_append _ _)

theorem unread_succ (input : List UInt8) (n : ℕ) :
    unread o input (n + 1) = if o.isInput then (unread o input n).tail else unread o input n := by
  unfold unread
  split
  · rw [List.tail_drop]
  · rfl

end Transcript

section Places

variable (g : Game) (o : Options) (input : List UInt8)

/-- The rounds that `main` has begun. -/
def MainLoc.begun : MainLoc → ℕ
  | .create _ => 0
  | .sendRange _ => 0
  | .sendGo cGen _ _ => cGen + 1
  | .collect cGen _ _ => cGen + 1
  | .isAllZero cGen _ _ _ _ => cGen
  | .hasNotChanged cGen _ _ _ _ => cGen
  | .sendStop cGen _ _ => cGen
  | .updateMatrix cGen _ _ _ => cGen
  | .print cGen allDoneCounter _ _ => if allDoneCounter = 0 then cGen else cGen + 1
  | .join cGen allDoneCounter _ => if allDoneCounter = 0 then cGen else cGen + 1
  | .finished cGen allDoneCounter => if allDoneCounter = 0 then cGen else cGen + 1

/-- What `main` has written after its rounds. -/
def closing : MainLoc → List UInt8
  | .print cGen _ i j =>
      endLine cGen ++ (rowsText g.columnSize (g.hist cGen) i ++ rowText (g.hist cGen) i j)
  | .join cGen _ _ => g.ending cGen
  | .finished cGen _ => g.ending cGen
  | _ => []

/-- A place in a loop over the cells that writes them. -/
def AtCell (i j : ℕ) : Prop := j ≤ g.columnSize ∧ i + (if j = 0 then 0 else 1) ≤ g.lineSize

/-- The bounds of the loop variables. -/
def LoopOk : MainLoc → Prop
  | .sendGo _ _ i => 1 ≤ i
  | .print _ _ i j => AtCell g i j
  | _ => True

/-- What has been written, and what has been read, when `main` is at a control
point. -/
def OnScreen : TerminalLoc → Terminal → Prop
  | .game l, c =>
      LoopOk g l ∧ c.output = g.shown o (l.begun) ++ closing g l ∧
        c.input = unread o input l.begun
  | .head cGen _, c => c.output = g.shown o cGen ∧ c.input = unread o input cGen
  | .matrix cGen _ i j, c =>
      o.isPrint = true ∧ AtCell g i j ∧
        c.output = g.shown o cGen ++ (generationLine cGen ++
          (rowsText g.columnSize (g.hist cGen) i ++ rowText (g.hist cGen) i j)) ∧
        c.input = unread o input cGen
  | .get cGen _, c => c.output = g.shown o (cGen + 1) ∧ c.input = unread o input cGen
  | .improper _, _ => False

end Places

section Steps

variable {g : Game} {o : Options} {input : List UInt8}

/-- Where `main` goes on in the game without writing, it has come no further unless it
comes to the head of the loop. -/
theorem OnScreen.enter {l l' : MainLoc} {c c' : Terminal} (h : OnScreen g o input (.game l) c)
    (hloop : LoopOk g l') (hclosing : closing g l' = closing g l)
    (hbegun : ∀ cGen al, l' = .sendGo cGen al 1 → l.begun = cGen)
    (hsame : (∀ cGen al, l' ≠ .sendGo cGen al 1) → l'.begun = l.begun)
    (hwrote : c'.output = c.output) (hread : c'.input = c.input) :
    OnScreen g o input (enter l') c' := by
  obtain ⟨-, hout, hin⟩ := h
  unfold Life.enter
  split
  · rename_i cGen al
    have hbegun := hbegun cGen al rfl
    have hnil : closing g l = [] := hclosing.symm
    rw [hnil, hbegun, List.append_nil] at hout
    exact ⟨hwrote.trans hout, hbegun ▸ hread.trans hin⟩
  · rename_i hne
    have hsame := hsame hne
    exact ⟨hloop, by rw [hwrote, hout, hsame, hclosing], by rw [hread, hin, hsame]⟩

/-- Sending, receiving, creating and joining write nothing. -/
theorem OnScreen.of_code {l : MainLoc} {c : Terminal} (h : OnScreen g o input (.game l) c) :
    (∀ b m l', mainCode g l = .send b m l' → OnScreen g o input (Life.enter l') c) ∧
      (∀ b k m, mainCode g l = .recv b k → OnScreen g o input (Life.enter (k m)) c) ∧
      (∀ u l', mainCode g l = .create u l' → OnScreen g o input (Life.enter l') c) ∧
      ∀ u l', mainCode g l = .join u l' → OnScreen g o input (Life.enter l') c := by
  refine ⟨?_, ?_, ?_, ?_⟩
  · intro b m l' hi
    cases l with
    | sendRange i =>
        simp only [mainCode] at hi
        split at hi <;> obtain ⟨rfl, rfl, rfl⟩ := Instr.send.inj hi
        · exact h.enter trivial rfl (by simp) (by simp [MainLoc.begun]) rfl rfl
        · exact h.enter (le_refl 1) rfl (by simp [MainLoc.begun]) (by simp) rfl rfl
    | sendGo cGen al i =>
        have hi1 : 1 ≤ i := h.1
        simp only [mainCode] at hi
        split at hi
        · obtain ⟨rfl, rfl, rfl⟩ := Instr.send.inj hi
          exact h.enter (Nat.le_add_left 1 i) rfl (by simp; omega) (by simp [MainLoc.begun]) rfl rfl
        · contradiction
    | sendStop cGen al i =>
        simp only [mainCode] at hi
        split at hi
        · obtain ⟨rfl, rfl, rfl⟩ := Instr.send.inj hi
          exact h.enter trivial rfl (by simp) (by simp [MainLoc.begun]) rfl rfl
        · contradiction
    | _ =>
        simp only [mainCode] at hi
        repeat' split at hi
        all_goals contradiction
  · intro b k m hi
    cases l <;> simp only [mainCode] at hi
    all_goals
      repeat' split at hi
      all_goals first | contradiction | obtain ⟨rfl, rfl⟩ := Instr.recv.inj hi
    dsimp only
    repeat' split
    all_goals exact h.enter trivial rfl (by simp [MainLoc.begun]) (by simp [MainLoc.begun]) rfl rfl
  · intro u l' hi
    cases l <;> simp only [mainCode] at hi
    all_goals
      repeat' split at hi
      all_goals first | contradiction | obtain ⟨rfl, rfl⟩ := Instr.create.inj hi
    exact h.enter trivial rfl (by simp [MainLoc.begun]) (by simp [MainLoc.begun]) rfl rfl
  · intro u l' hi
    cases l <;> simp only [mainCode] at hi
    all_goals
      repeat' split at hi
      all_goals first | contradiction | obtain ⟨rfl, rfl⟩ := Instr.join.inj hi
    exact h.enter trivial rfl (by simp [MainLoc.begun]) (by simp [MainLoc.begun]) rfl rfl

/-- What counts of the terminal is what has been written and read. -/
theorem OnScreen.congr {l : TerminalLoc} {c c' : Terminal} (h : OnScreen g o input l c)
    (hwrote : c'.output = c.output) (hread : c'.input = c.input) : OnScreen g o input l c' := by
  cases l <;> simp only [OnScreen, hwrote, hread] <;> exact h

/-- `main` leaves its rounds, and writes their number. -/
theorem OnScreen.ends {l : MainLoc} {c c' : Terminal} (h : OnScreen g o input (.game l) c)
    {cGen al : ℕ} (hclosing : closing g l = [])
    (hbegun : (MainLoc.print cGen al 0 0).begun = l.begun)
    (hout : c'.output = c.output ++ endLine cGen) (hin : c'.input = c.input) :
    OnScreen g o input (.game (.print cGen al 0 0)) c' := by
  obtain ⟨-, hout', hin'⟩ := h
  refine ⟨⟨Nat.zero_le _, Nat.zero_le _⟩, ?_, by rw [hin, hin', hbegun]⟩
  rw [hout, hout', hclosing, hbegun, List.append_nil]
  simp [closing, rowsText, rowText]

/-- One cell of the last board is written, or a line is ended. -/
theorem OnScreen.print {cGen al i j : ℕ} {c : Terminal} {f : Memory → Memory × MainLoc}
    (h : OnScreen g o input (.game (.print cGen al i j)) c)
    (hafter : SameBoard g.lineSize g.columnSize c.mem.after (g.hist cGen))
    (hi : mainCode g (.print cGen al i j) = .access f) :
    OnScreen g o input (Life.enter (f c.mem).2)
      { c.put (puts g c.mem (.print cGen al i j) (f c.mem).2) with mem := (f c.mem).1 } := by
  obtain ⟨⟨hj, hline⟩, hout, hin⟩ := h
  rcases access_of_scan hi with ⟨hlt, hlt', rfl⟩ | ⟨hlt, hge, rfl⟩ | ⟨hge, hi⟩
  · refine ⟨⟨hlt', by simpa using Nat.succ_le_of_lt hlt⟩, ?_, hin⟩
    simp only [Terminal.put, puts, if_pos hlt, if_pos hlt', hout, hafter i j hlt hlt', closing,
      rowText_succ, List.append_assoc]
    rfl
  · obtain rfl : j = g.columnSize := by omega
    refine ⟨⟨Nat.zero_le _, by simpa using Nat.succ_le_of_lt hlt⟩, ?_, hin⟩
    simp only [Terminal.put, puts, if_pos hlt, if_neg (lt_irrefl _), hout, closing, rowsText_succ,
      List.append_assoc]
    simp [rowText, MainLoc.begun]
  · obtain rfl := Instr.access.inj hi
    obtain rfl : j = 0 := by
      by_contra hne
      rw [if_neg hne] at hline
      omega
    obtain rfl : i = g.lineSize := by
      rw [if_pos rfl] at hline
      omega
    refine ⟨trivial, ?_, hin⟩
    simp [Terminal.put, puts, hout, closing, Game.ending, matrixText, rowText, MainLoc.begun]

/-- The steps of the game that read or write the memory. -/
theorem OnScreen.access {l : MainLoc} {c : Terminal} {f : Memory → Memory × MainLoc}
    (h : OnScreen g o input (.game l) c) (hok : MainOk g l) (hboards : Boards g l c.mem)
    (hi : mainCode g l = .access f) :
    OnScreen g o input (Life.enter (f c.mem).2)
      { c.put (puts g c.mem l (f c.mem).2) with mem := (f c.mem).1 } := by
  have hT := g.one_le_threads
  cases l with
  | print cGen al i j => exact h.print hboards.2.1 hi
  | collect cGen al i =>
      simp only [mainCode] at hi
      (repeat' split at hi) <;> first | contradiction | obtain rfl := Instr.access.inj hi
      · rename_i hal
        have hne : al ≠ 0 := by omega
        exact h.ends rfl (if_neg hne) rfl rfl
      · refine h.enter trivial rfl (by simp) (by simp [MainLoc.begun]) ?_ rfl
        simp [Terminal.put, puts]
  | sendStop cGen al i =>
      simp only [mainCode] at hi
      split at hi
      · contradiction
      · obtain rfl := Instr.access.inj hi
        exact h.ends rfl (if_pos hok.2.2.1) rfl rfl
  | updateMatrix cGen al i j =>
      have hal : al = 0 := hok.2.2
      rcases access_of_scan hi with ⟨-, -, rfl⟩ | ⟨-, -, rfl⟩ | ⟨-, hi⟩
      · refine h.enter trivial rfl (by simp) (by simp [MainLoc.begun]) ?_ rfl
        simp [Terminal.put, puts]
      · refine h.enter trivial rfl (by simp) (by simp [MainLoc.begun]) ?_ rfl
        simp [Terminal.put, puts]
      · rw [if_neg (by omega)] at hi
        obtain rfl := Instr.access.inj hi
        refine h.enter (le_refl 1) rfl (by simp [MainLoc.begun]) (by simp) ?_ rfl
        simp [Terminal.put, puts]
  | join cGen al i =>
      simp only [mainCode] at hi
      split at hi
      · contradiction
      · obtain rfl := Instr.access.inj hi
        refine h.enter trivial rfl (by simp) (by simp [MainLoc.begun]) ?_ rfl
        simp [Terminal.put, puts]
  | _ =>
      simp only [mainCode] at hi
      (repeat' split at hi) <;> first | contradiction | obtain rfl := Instr.access.inj hi
      all_goals
        refine h.enter trivial rfl (by simp) (by simp [MainLoc.begun]) ?_ rfl
        simp [Terminal.put, puts]

/-- The head of the generation loop. -/
theorem OnScreen.head {l : TerminalLoc} {c : Terminal} (h : OnScreen g o input l c)
    (hl : ∀ l', l ≠ .game l')
    (hbefore : ∀ cGen al, l.inGame = .sendGo cGen al 1 → c.mem.before = g.hist cGen)
    {f : Terminal → Terminal × TerminalLoc} (hi : terminalCode g o l = .access f) :
    OnScreen g o input (f c).2 (f c).1 := by
  cases l with
  | game l => exact absurd rfl (hl l)
  | head cGen al =>
      obtain ⟨hout, hin⟩ := h
      simp only [terminalCode] at hi
      split at hi <;> obtain rfl := Instr.access.inj hi
      · rename_i hprint
        refine ⟨hprint, ⟨Nat.zero_le _, Nat.zero_le _⟩, ?_, hin⟩
        simp [Terminal.put, hout, rowsText, rowText]
      · rename_i hprint
        refine ⟨?_, hin⟩
        rw [Game.shown_succ, if_neg hprint, List.append_nil]
        exact hout
  | matrix cGen al i j =>
      obtain ⟨hprint, ⟨hj, hline⟩, hout, hin⟩ := h
      have hbefore := hbefore cGen al rfl
      simp only [terminalCode] at hi
      split at hi
      · rename_i hlt
        split at hi <;> obtain rfl := Instr.access.inj hi
        · rename_i hlt'
          refine ⟨hprint, ⟨hlt', by simpa using Nat.succ_le_of_lt hlt⟩, ?_, hin⟩
          simp only [Terminal.put, hout, hbefore, rowText_succ, List.append_assoc]
        · obtain rfl : j = g.columnSize := by omega
          refine ⟨hprint, ⟨Nat.zero_le _, by simpa using Nat.succ_le_of_lt hlt⟩, ?_, hin⟩
          simp [Terminal.put, hout, rowsText_succ, rowText]
      · obtain rfl := Instr.access.inj hi
        obtain rfl : j = 0 := by
          by_contra hne
          rw [if_neg hne] at hline
          omega
        obtain rfl : i = g.lineSize := by
          rw [if_pos rfl] at hline
          omega
        refine ⟨?_, hin⟩
        rw [Game.shown_succ, if_pos hprint]
        simp [Terminal.put, hout, Game.shows, matrixText, rowText]
  | get cGen al =>
      obtain ⟨hout, hin⟩ := h
      obtain rfl := Instr.access.inj hi
      refine ⟨le_refl 1, ?_, ?_⟩
      · dsimp only
        split <;> simp [hout, closing, MainLoc.begun]
      · simp only [MainLoc.begun, unread_succ, ← hin]
        split <;> rfl
  | improper l => exact h.elim

end Steps

section Runs

variable {g : Game} {o : Options} {input : List UInt8} {blank : Msg}
variable {s s' : State (g.terminal o)}

/-- What is known of `main` and of the matrices where it does not receive. -/
theorem facts_of_terminal (hfits : Fits g.lineSize g.columnSize)
    (hs : Transition.Reachable next (g.startTerminal o blank input) s)
    {l : MainLoc} (hl : (s.loc .main).inGame = l) (hrecv : ∀ b k, mainCode g l ≠ .recv b k) :
    MainOk g l ∧ Boards g l s.mem.mem := by
  have hreach := (reachable_terminal_iff g o blank input _).mpr ⟨s, hs, rfl⟩
  have ha := abstract_reachable (exclusive_start g blank) hreach
  have hmain := abstract_main (g := g) (s := (terminalErasure g o).state s) hl hrecv
  have hok := (inv_of_reachable ha).flow.mainOk
  have hboards := (memo_of_reachable hfits ha).boards
  rw [hmain] at hok hboards
  exact ⟨hok, hboards⟩

/-- The messages of the workers are GENDONE and ALLDONE. -/
theorem type_of_returned (hs : Transition.Reachable next (g.startTerminal o blank input) s)
    {cGen al i : ℕ} (hl : (s.loc .main).inGame = .collect cGen al i) {m : Msg}
    (hm : m ∈ s.returned 0) : m.type = .genDone ∨ m.type = .allDone := by
  have hreach := (reachable_terminal_iff g o blank input _).mpr ⟨s, hs, rfl⟩
  have htypes := (returned_types hreach hl).2
  have hmem : m.type ∈ g.types (cGen * g.numberOfThreads + (i - 1)) :=
    htypes ▸ List.mem_map_of_mem hm
  obtain ⟨k, -, hk⟩ := List.mem_map.mp hmem
  rw [← hk, parentType]
  split
  · exact .inl rfl
  · exact .inr rfl

/-- A worker writes and reads nothing. -/
theorem terminal_of_workerMove {i : ℕ} (hmove : Move s (.worker i) s') :
    s'.loc .main = s.loc .main ∧ s'.mem.output = s.mem.output ∧ s'.mem.input = s.mem.input := by
  cases hmove with
  | core c hc =>
      have hcode : (g.terminal o).code (.worker i) (s.loc (.worker i)) =
        onMemory (linesthread g i (s.loc (.worker i))) := rfl
      rw [hcode] at hc
      cases hi : linesthread g i (s.loc (.worker i)) <;> rw [hi] at hc <;>
        simp only [onMemory, Core.next] at hc
      all_goals first | contradiction | skip
      all_goals try split at hc
      all_goals first
        | contradiction
        | (obtain rfl := Option.some.inj hc; simp [Core.goto])
  | _ => simp [Core.goto]

/-- `main` does not use the semaphores of the barrier. -/
theorem mainCode_no_wait (l : MainLoc) :
    (∀ q l', mainCode g l ≠ .wait q l') ∧ ∀ q l', mainCode g l ≠ .post q l' := by
  constructor <;> intro q l' hi <;> cases l <;> simp only [mainCode] at hi <;>
    (repeat' split at hi) <;> contradiction

/-- `main` receives where it collects, and goes on collecting. -/
theorem collect_of_recv {l : MainLoc} {b : ℕ} {k : Msg → MainLoc} (h : mainCode g l = .recv b k)
    (m : Msg) : b = 0 ∧ ∃ cGen al i al' i', l = .collect cGen al i ∧
      k m = .collect cGen al' i' := by
  cases l <;> simp only [mainCode] at h
  all_goals
    repeat' split at h
    all_goals first | contradiction | obtain ⟨rfl, rfl⟩ := Instr.recv.inj h
  refine ⟨rfl, ?_⟩
  dsimp only
  repeat' split
  all_goals exact ⟨_, _, _, _, _, rfl, rfl⟩

/-- A step of `main` in the game. -/
theorem OnScreen.gameMove (hs' : Transition.Reachable next (g.startTerminal o blank input) s')
    {l : MainLoc} (hl : s.loc .main = .game l) (h : OnScreen g o input (.game l) s.mem)
    (hfacts : (∀ b k, mainCode g l ≠ .recv b k) → MainOk g l ∧ Boards g l s.mem.mem)
    (hmove : Move s .main s') : OnScreen g o input (s'.loc .main) s'.mem := by
  have hcode : (g.terminal o).code .main (s.loc .main) = write g l (mainCode g l) := by
    rw [hl]
    rfl
  obtain ⟨hsend, hrecv, hcreate, hjoin⟩ := h.of_code
  cases hmove with
  | sendWait b m l' hi hp hfree => exact hl ▸ h
  | sendCopy b m l' hi hp => exact hl ▸ h
  | recvWait b k hi hp hready => exact hl ▸ h
  | recvCopy b k hi hp => exact hl ▸ h
  | sendPost b m m' l' hi hp =>
      rw [hcode] at hi
      cases hc : mainCode g l <;> rw [hc] at hi <;> simp only [write] at hi <;>
        first | contradiction | skip
      obtain ⟨rfl, rfl, rfl⟩ := Instr.send.inj hi
      simpa using hsend _ _ _ hc
  | recvPost b k m hi hp =>
      rw [hcode] at hi
      cases hc : mainCode g l <;> rw [hc] at hi <;> simp only [write] at hi <;>
        first | contradiction | skip
      obtain ⟨rfl, rfl⟩ := Instr.recv.inj hi
      obtain ⟨rfl, cGen, al₀, i₀, al, i, -, hk⟩ := collect_of_recv hc m
      have hloc : TerminalLoc.inGame (if m.type = .genDone ∨ m.type = .allDone then
          Life.enter (MainLoc.collect cGen al i) else .improper (.collect cGen al i)) =
            .collect cGen al i := by
        split <;> rfl
      have htype := type_of_returned hs' (m := m) (by simpa [hk] using hloc) (by simp)
      simpa [if_pos htype] using hrecv _ _ m hc
  | core c hc =>
      rw [hcode] at hc
      cases hi : mainCode g l with
      | access f =>
          rw [hi] at hc
          obtain rfl := Option.some.inj hc
          obtain ⟨hok, hboards⟩ := hfacts (by simp [hi])
          simpa [Core.goto] using h.access hok hboards hi
      | create u l' =>
          rw [hi] at hc
          obtain rfl := Option.some.inj hc
          simpa [Core.goto] using hcreate u l' hi
      | join u l' =>
          rw [hi] at hc
          simp only [write, Core.next] at hc
          split at hc
          · obtain rfl := Option.some.inj hc
            simpa [Core.goto] using hjoin u l' hi
          · contradiction
      | exit =>
          rw [hi] at hc
          obtain rfl := Option.some.inj hc
          exact hl ▸ h
      | abort =>
          rw [hi] at hc
          obtain rfl := Option.some.inj hc
          exact hl ▸ h
      | send b m l' =>
          rw [hi] at hc
          contradiction
      | recv b k =>
          rw [hi] at hc
          contradiction
      | wait q l' => exact absurd hi ((mainCode_no_wait l).1 q l')
      | post q l' => exact absurd hi ((mainCode_no_wait l).2 q l')

/-- A step of `main`. -/
theorem OnScreen.mainMove (hfits : Fits g.lineSize g.columnSize)
    (hs : Transition.Reachable next (g.startTerminal o blank input) s)
    (h : OnScreen g o input (s.loc .main) s.mem) (hnext : next .main s = some s') :
    OnScreen g o input (s'.loc .main) s'.mem := by
  have hs' := hs.tail ⟨_, hnext⟩
  obtain ⟨hactive, hmove⟩ := next_eq_some_iff.mp hnext
  have hcode : (g.terminal o).code .main (s.loc .main) = terminalCode g o (s.loc .main) := rfl
  by_cases hgame : ∃ l, s.loc .main = .game l
  · obtain ⟨l, hl⟩ := hgame
    refine OnScreen.gameMove hs' hl (hl ▸ h) (fun hrecv => ?_) hmove
    exact facts_of_terminal hfits hs (by rw [hl]; rfl) hrecv
  · have hgame : ∀ l, s.loc .main ≠ .game l := fun l hl => hgame ⟨l, hl⟩
    obtain ⟨f, hf, -⟩ := silent_of_not_game (g := g) o hgame
    rw [next_core hactive (by rw [hcode, hf]; rfl), hcode, hf] at hnext
    obtain rfl := Option.some.inj hnext
    have hhead := h.head hgame (fun cGen al hl => ?_) hf
    · simpa [Core.goto] using hhead
    · exact (facts_of_terminal hfits hs hl (mainCode_ne_recv (by simp))).2.1

/-- What has been written in every state that can be reached. -/
theorem onScreen_of_reachable (hfits : Fits g.lineSize g.columnSize)
    (hs : Transition.Reachable next (g.startTerminal o blank input) s) :
    OnScreen g o input (s.loc .main) s.mem := by
  refine hs.invariant (I := fun s => OnScreen g o input (s.loc .main) s.mem) ?_ ?_
  · refine ⟨trivial, ?_, ?_⟩
    · simp [Game.startTerminal, State.initial, closing, MainLoc.begun, Game.shown]
    · simp [Game.startTerminal, State.initial, MainLoc.begun, unread]
  · intro t a a' hreach h hnext
    cases t with
    | main => exact h.mainMove hfits hreach hnext
    | worker i =>
        obtain ⟨hmain, hout, hin⟩ := terminal_of_workerMove (next_eq_some_iff.mp hnext).2
        rw [hmain]
        exact OnScreen.congr h hout hin

/-- Where `main` collects, whether it is inside a receive or not. -/
theorem facts_of_collect (hfits : Fits g.lineSize g.columnSize)
    (hs : Transition.Reachable next (g.startTerminal o blank input) s)
    {cGen al i : ℕ} (hl : (s.loc .main).inGame = .collect cGen al i) :
    cGen ≤ g.numberOfGenerations ∧ g.Unsettled cGen := by
  have hreach := (reachable_terminal_iff g o blank input _).mpr ⟨s, hs, rfl⟩
  have ha := abstract_reachable (exclusive_start g blank) hreach
  have hok := (inv_of_reachable ha).flow.mainOk
  have hboards := (memo_of_reachable hfits ha).boards
  have hview : ∃ al' i', (view (abstract ((terminalErasure g o).state s))).main =
      .collect cGen al' i' := by
    rcases abstractLoc_cases ((terminalErasure g o).state s) .main with heq | ⟨b, k, m, hc, heq⟩
    · exact ⟨al, i, heq.trans hl⟩
    · obtain ⟨-, cGen', al₀, i₀, al', i', hsame, hk⟩ := collect_of_recv hc m
      obtain ⟨rfl, -⟩ := MainLoc.collect.inj (hl.symm.trans hsame)
      exact ⟨al', i', heq.trans hk⟩
  obtain ⟨al', i', hview⟩ := hview
  rw [hview] at hok hboards
  exact ⟨hok.1, hboards.2⟩

end Runs

section Ends

variable {g : Game} {o : Options} {input : List UInt8} {blank : Msg}
variable {s : State (g.terminal o)} {n cGen : ℕ}

theorem Game.Ends.succ_le_roundsBegun (h : g.Ends n) (hc : cGen ≤ g.numberOfGenerations)
    (hun : g.Unsettled cGen) : cGen + 1 ≤ g.roundsBegun n := by
  unfold Game.roundsBegun
  split
  · rename_i hsettled
    by_contra hlt
    have hn : 1 ≤ n := by
      rcases h.1 with hn | ⟨hn, -⟩
      · exact hn ▸ g.one_le_generations
      · exact hn
    exact hun n hn (by omega) hsettled
  · rename_i hsettled
    rcases h.1 with rfl | ⟨-, hs⟩
    · omega
    · exact absurd hs hsettled

theorem Game.Ends.le_roundsBegun (h : g.Ends n) (hc1 : 1 ≤ cGen)
    (hc : cGen ≤ g.numberOfGenerations) (hun : g.Unsettled (cGen - 1)) :
    cGen ≤ g.roundsBegun n := by
  have hle : cGen - 1 + 1 ≤ g.roundsBegun n := h.succ_le_roundsBegun (by omega) hun
  omega

/-- The game ends only once. -/
theorem Game.Ends.unique {m : ℕ} (h : g.Ends m) (h' : g.Ends n) : m = n :=
  IsLeast.unique h h'

/-- What has been written before the last lines are those of the rounds begun. -/
theorem isPrefix_of_begun {rounds : ℕ} {out : List UInt8} (hout : out = g.shown o rounds)
    (hle : rounds ≤ g.roundsBegun n) : out <+: g.transcript o n :=
  hout ▸ (Game.shown_isPrefix o hle).trans (List.prefix_append _ _)

/-- While a generation is shown, its round has not been left. -/
theorem isPrefix_of_shows {out : List UInt8} (hout : out <+: g.shows cGen)
    (hprint : o.isPrint = true) (hle : cGen + 1 ≤ g.roundsBegun n) :
    g.shown o cGen ++ out <+: g.transcript o n := by
  refine List.IsPrefix.trans ?_ (isPrefix_of_begun rfl hle)
  rw [Game.shown_succ, if_pos hprint]
  exact (List.prefix_append_right_inj _).mpr hout

/-- After its rounds `main` knows how many there were. -/
theorem begun_of_ends {al : ℕ} (h : al = 0 ↔ g.Settled cGen) :
    (if al = 0 then cGen else cGen + 1) = g.roundsBegun cGen :=
  if_congr h rfl rfl

/-- What is known of the game when `main` writes its end. -/
theorem ends_of_facts {al : ℕ} (hok : 1 ≤ cGen ∧ cGen ≤ g.numberOfGenerations ∧
      (al = 0 ∨ al = g.numberOfThreads ∧ cGen = g.numberOfGenerations))
    (hun : g.Unsettled (cGen - 1)) (hsettled : al = 0 ↔ g.Settled cGen) : g.Ends cGen :=
  Game.ends_of_stop hok.1 hok.2.1 hok.2.2 hun hsettled

/-- What has been written in the game, on the way to its end. -/
theorem OnScreen.isPrefix_game {l : MainLoc} {c : Terminal}
    (h : OnScreen g o input (.game l) c) (hends : g.Ends n)
    (hcollect : ∀ cGen al i, l = .collect cGen al i →
      cGen ≤ g.numberOfGenerations ∧ g.Unsettled cGen)
    (hfacts : (∀ cGen al i, l ≠ .collect cGen al i) → MainOk g l ∧ Boards g l c.mem) :
    c.output <+: g.transcript o n := by
  obtain ⟨hloop, hout, -⟩ := h
  have hround : closing g l = [] → l.begun ≤ g.roundsBegun n → c.output <+: g.transcript o n :=
    fun hnil hle => isPrefix_of_begun (by rw [hout, hnil, List.append_nil]) hle
  have hclosed : ∀ {cGen al : ℕ} {out : List UInt8}, g.Ends cGen → (al = 0 ↔ g.Settled cGen) →
      c.output = g.shown o (if al = 0 then cGen else cGen + 1) ++ out → out <+: g.ending cGen →
      c.output <+: g.transcript o n := by
    intro cGen al out hends' hsettled hout hpre
    rw [hout, begun_of_ends hsettled, hends.unique hends']
    exact (List.prefix_append_right_inj _).mpr hpre
  cases l with
  | create i => exact hround rfl (Nat.zero_le _)
  | sendRange i => exact hround rfl (Nat.zero_le _)
  | sendGo cGen al i =>
      obtain ⟨hok, hboards⟩ := hfacts (by simp)
      exact hround rfl (hends.succ_le_roundsBegun hok.1 hboards.2)
  | collect cGen al i =>
      obtain ⟨hc, hun⟩ := hcollect cGen al i rfl
      exact hround rfl (hends.succ_le_roundsBegun hc hun)
  | isAllZero cGen al i j isZero =>
      obtain ⟨hok, hboards⟩ := hfacts (by simp)
      exact hround rfl (hends.le_roundsBegun hok.1 hok.2.1 hboards.2.1)
  | hasNotChanged cGen al i j notChanged =>
      obtain ⟨hok, hboards⟩ := hfacts (by simp)
      exact hround rfl (hends.le_roundsBegun hok.1 hok.2.1 hboards.2.1)
  | sendStop cGen al i =>
      obtain ⟨hok, hboards⟩ := hfacts (by simp)
      exact hround rfl (hends.le_roundsBegun hok.1 hok.2.1 hboards.1)
  | updateMatrix cGen al i j =>
      obtain ⟨hok, hboards⟩ := hfacts (by simp)
      exact hround rfl (hends.le_roundsBegun hok.1 hok.2.1 (hboards.1.mono (Nat.sub_le _ _)))
  | print cGen al i j =>
      obtain ⟨hok, hboards⟩ := hfacts (by simp)
      refine hclosed (ends_of_facts hok hboards.1 hboards.2.2) hboards.2.2 hout ?_
      exact (List.prefix_append_right_inj _).mpr (rowsText_isPrefix hloop.1 hloop.2)
  | join cGen al i =>
      obtain ⟨⟨hc, hcG, hal, -⟩, hboards⟩ := hfacts (by simp)
      exact hclosed (ends_of_facts ⟨hc, hcG, hal⟩ hboards.1 hboards.2.2) hboards.2.2 hout
        List.prefix_rfl
  | finished cGen al =>
      obtain ⟨hok, hboards⟩ := hfacts (by simp)
      exact hclosed (ends_of_facts hok hboards.1 hboards.2.2) hboards.2.2 hout List.prefix_rfl

/-- What has been written on the way to the end. -/
theorem OnScreen.isPrefix (h : OnScreen g o input (s.loc .main) s.mem)
    (hfits : Fits g.lineSize g.columnSize)
    (hs : Transition.Reachable next (g.startTerminal o blank input) s) (hends : g.Ends n) :
    s.mem.output <+: g.transcript o n := by
  have hhead : ∀ {cGen al}, (s.loc .main).inGame = .sendGo cGen al 1 →
      cGen + 1 ≤ g.roundsBegun n := by
    intro cGen al hl
    obtain ⟨hok, hboards⟩ := facts_of_terminal hfits hs hl (mainCode_ne_recv (by simp))
    exact hends.succ_le_roundsBegun hok.1 hboards.2
  cases hl : s.loc .main with
  | game l =>
      rw [hl] at h
      have hin : (s.loc .main).inGame = l := by rw [hl]; rfl
      refine h.isPrefix_game hends (fun cGen al i hc => facts_of_collect hfits hs (hin.trans hc))
        fun hne => facts_of_terminal hfits hs hin fun b k hc => ?_
      obtain ⟨-, cGen, al, i, -, -, hsame, -⟩ := collect_of_recv hc blank
      exact hne cGen al i hsame
  | head cGen al =>
      rw [hl] at h hhead
      exact isPrefix_of_begun h.1 (Nat.le_of_succ_le (hhead rfl))
  | matrix cGen al i j =>
      rw [hl] at h hhead
      obtain ⟨hprint, ⟨hj, hline⟩, hout, -⟩ := h
      rw [hout]
      refine isPrefix_of_shows ?_ hprint (hhead rfl)
      exact ((List.prefix_append_right_inj _).mpr (rowsText_isPrefix hj hline)).trans
        (List.prefix_append _ _)
  | get cGen al =>
      rw [hl] at h hhead
      exact isPrefix_of_begun h.1 (hhead rfl)
  | improper l =>
      rw [hl] at h
      exact h.elim

/-- All that has been written, and read, when `main` is past its last line, whether it
still joins the workers or has finished. -/
theorem transcript_of_printed (hfits : Fits g.lineSize g.columnSize)
    (hs : Transition.Reachable next (g.startTerminal o blank input) s) {al : ℕ}
    (hl : (∃ i, s.loc .main = TerminalLoc.game (.join cGen al i)) ∨
      s.loc .main = TerminalLoc.game (.finished cGen al)) :
    g.Ends cGen ∧ s.mem.output = g.transcript o cGen ∧
      s.mem.input = unread o input (g.roundsBegun cGen) := by
  have hscreen := onScreen_of_reachable hfits hs
  rcases hl with ⟨i, hl⟩ | hl
  · have hin : (s.loc .main).inGame = .join cGen al i := by rw [hl]; rfl
    obtain ⟨⟨hc, hcG, hal, -⟩, hboards⟩ :=
      facts_of_terminal hfits hs hin (mainCode_ne_recv (by simp))
    rw [hl] at hscreen
    obtain ⟨-, hout, hread⟩ := hscreen
    have hbegun := begun_of_ends hboards.2.2
    refine ⟨ends_of_facts ⟨hc, hcG, hal⟩ hboards.1 hboards.2.2, ?_, hread.trans (hbegun ▸ rfl)⟩
    rw [hout, Game.transcript, ← hbegun]
    rfl
  · have hin : (s.loc .main).inGame = .finished cGen al := by rw [hl]; rfl
    obtain ⟨hok, hboards⟩ := facts_of_terminal hfits hs hin (by simp [mainCode])
    rw [hl] at hscreen
    obtain ⟨-, hout, hread⟩ := hscreen
    have hbegun := begun_of_ends hboards.2.2
    refine ⟨ends_of_facts hok hboards.1 hboards.2.2, ?_, hread.trans (hbegun ▸ rfl)⟩
    rw [hout, Game.transcript, ← hbegun]
    rfl

/-- Whatever the order of the steps, what `main` has written, and read, is told by where
it is. It is a beginning of the transcript of the sequential game, and all of it as soon
as `main` is past its last line, with one byte of input read for each round begun. -/
theorem transcript_of_reachable (hfits : Fits g.lineSize g.columnSize)
    (hs : Transition.Reachable next (g.startTerminal o blank input) s) :
    OnScreen g o input (s.loc .main) s.mem ∧
      (∀ n, g.Ends n → s.mem.output <+: g.transcript o n) ∧
      ∀ cGen al, ((∃ i, s.loc .main = TerminalLoc.game (.join cGen al i)) ∨
          s.loc .main = TerminalLoc.game (.finished cGen al)) →
        g.Ends cGen ∧ s.mem.output = g.transcript o cGen ∧
          s.mem.input = unread o input (g.roundsBegun cGen) :=
  ⟨onScreen_of_reachable hfits hs,
    fun _ hends => (onScreen_of_reachable hfits hs).isPrefix hfits hs hends,
    fun _ _ hl => transcript_of_printed hfits hs hl⟩

/-- `main` shows the board before each round and waits for a byte of input, and stops at
the last generation. -/
def hookShown : List ThreadId :=
  List.replicate 21 .main ++ List.replicate 3 (.worker 1) ++ List.replicate 3 (.worker 2) ++
    List.replicate 7 .main ++ hookRound ++ List.replicate 53 .main ++ hookRound ++
      List.replicate 53 .main ++ hookRound ++ List.replicate 41 .main

/-- All has been written when `main` waits for the first worker, though it will wait
for ever. -/
theorem transcript_of_reachable_hook :
    ∃ s, Transition.run next hookShown
        (hookThree.startTerminal ⟨true, true⟩ (hookThree.uninit 0 0) [10, 10, 10, 10]) = some s ∧
      s.loc .main = TerminalLoc.game (.join 3 0 1) ∧
      s.mem.output = ascii "Generation 0:\n0 1 \n0 1 \n1 1 \n\n" ++
        ascii "Generation 1:\n0 0 \n0 1 \n1 1 \n\n" ++
        ascii "Generation 2:\n0 0 \n1 1 \n1 1 \n\n" ++
        ascii "The game ends after 3 generations with:\n0 0 \n1 1 \n1 1 \n" ∧
      s.mem.input = [10] := by
  have hrun : (Transition.run next hookShown
      (hookThree.startTerminal ⟨true, true⟩ (hookThree.uninit 0 0) [10, 10, 10, 10])).map
        (fun s => s.loc .main) = some (TerminalLoc.game (.join 3 0 1)) := by decide +kernel
  obtain ⟨s, hs, hreach, hl⟩ := Transition.exists_of_run_map hrun
  obtain ⟨-, -, hall⟩ := transcript_of_reachable (by decide) hreach
  obtain ⟨-, hout, hin⟩ := hall 3 0 (.inl ⟨1, hl⟩)
  exact ⟨s, hs, hl, hout.trans (by decide +kernel), hin.trans (by decide +kernel)⟩

end Ends

end Life

end OperatingSystems
