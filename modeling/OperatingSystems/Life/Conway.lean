import OperatingSystems.Life.EarlyStop

/-!
# One generation is Conway's rule

`main` starts a round when it sends the first GO, and the round is computed once
every worker is past its rows. From the start of the round to this point `before`
stays as it is and `after` changes on the board only, and there every cell holds
what Conway's rule says, whatever the order of the threads' steps.
-/

namespace OperatingSystems

namespace Life

open OperatingSystems.Thread OperatingSystems.Mailbox

variable {g : Game}

/-- Conway's rule: a cell with three live neighbors lives, and a live cell with
two stays alive. -/
def conwayCell (lineSize columnSize : ℕ) (m : Grid) (line column : ℤ) : ℤ :=
  if liveNeighbors lineSize columnSize m line column = 3 ∨
      liveNeighbors lineSize columnSize m line column = 2 ∧ cell m line column ≠ 0 then 1
  else 0

/-- A worker is past its rows of generation `n + 1`. -/
def WorkerLoc.PastRows (n : ℕ) : WorkerLoc → Prop
  | .row _ _ _ => False
  | .neighbor _ _ _ _ _ => False
  | l => n + 1 ≤ l.goRecvd

section Rule

/-- The last branch copies a cell only when it is zero. -/
theorem rule_eq (m : Grid) (line column : ℤ) (numNeighbors : ℕ) :
    rule m line column numNeighbors =
      if numNeighbors = 3 ∨ numNeighbors = 2 ∧ cell m line column ≠ 0 then 1 else 0 := by
  unfold rule
  by_cases hcell : cell m line column = 0
  · simp only [hcell]
    split_ifs <;> omega
  · split_ifs <;> omega

/-- Within an array that is clear outside the board the rule is Conway's. -/
theorem ClearOutside.nextCell_eq {lineSize columnSize : ℕ} {m : Grid}
    (h : ClearOutside lineSize columnSize m) (hline : lineSize ≤ 39) (hcolumn : columnSize ≤ 39)
    {i j : ℕ} (hi : i < lineSize) (hj : j < columnSize) :
    nextCell lineSize columnSize m i j = conwayCell lineSize columnSize m i j := by
  rw [nextCell, (h.borderZero hline hcolumn).exact i j hi hj, rule_eq]
  rfl

end Rule

section Outside

variable {s s' : View} {i : ℕ}

theorem after_of_mainMove (hmove : MainMove g s s') : s'.mem.after = s.mem.after := by
  cases hmove with
  | access f hi => exact after_of_mainCode hi s.mem
  | _ => rfl

/-- A worker stores only into cells of the board. -/
theorem after_of_workerMove (hm : Memo g s) (hi : i ∈ g.workers) (hmove : WorkerMove g i s s')
    {k : ℤ} (hk : ¬ OnBoard g.lineSize g.columnSize k) : s'.mem.after k = s.mem.after k := by
  cases hmove with
  | access f hcode =>
      rcases after_of_linesthread hcode s.mem with heq | ⟨v, line, column, j, c, value, hl, heq⟩
      · exact congrFun heq k
      · have hrow := hm.row i hi
        rw [hl] at hrow
        obtain ⟨howns, hcolumn, hcolumn', -, -⟩ := hrow
        obtain ⟨hline, hline'⟩ := howns.on_board hi
        have hne : k ≠ line * maxGrid + column := by
          rintro rfl
          exact hk (onBoard_address g.columnSize_le hline hline' hcolumn hcolumn')
        dsimp only
        rw [heq, store, Function.update_of_ne hne]
  | _ => rfl

/-- Outside the board `after` keeps what it held at first. -/
theorem after_of_reachable (hfits : Fits g.lineSize g.columnSize) {blank : Msg}
    {a : Atomic g.program} (ha : Transition.Reachable atomicNext (g.init blank) a) {k : ℤ}
    (hk : ¬ OnBoard g.lineSize g.columnSize k) : (view a).mem.after k = g.memory.after k := by
  refine ha.invariant (I := fun a => (view a).mem.after k = g.memory.after k) ?_ ?_
  · rw [Game.init, view_start]
    rfl
  · intro t a a' hreach h hnext
    have hinv := inv_of_reachable hreach
    obtain ⟨-, hrun, hmove⟩ := move_of_step hnext
    cases t with
    | main =>
        rw [after_of_mainMove hmove]
        exact h
    | worker i =>
        have hi := hinv.lives.mem_workers hinv.flow.mainOk hrun
        exact (after_of_workerMove (memo_of_reachable hfits hreach) hi hmove hk).trans h

end Outside

section Round

variable {blank : Msg} {s : State g.program} {n : ℕ}

/-- Inside a receive of a round `main` is still in that round. -/
theorem main_of_collect {al k : ℕ} (hmain : s.loc .main = MainLoc.collect n al k) :
    ∃ al' k', (view (abstract s)).main = .collect n al' k' := by
  rcases abstractLoc_cases s .main with heq | ⟨b, κ, m, hc, hm⟩
  · exact ⟨al, k, heq.trans hmain⟩
  · have hcode : mainCode g (.collect n al k) = .recv b κ := hmain ▸ hc
    change ∃ al' k', abstractLoc s .main = MainLoc.collect n al' k'
    rw [hm]
    simp only [mainCode] at hcode
    (repeat' split at hcode) <;> try contradiction
    obtain ⟨-, rfl⟩ := Instr.recv.inj hcode
    dsimp only
    (repeat' split) <;> exact ⟨_, _, rfl⟩

/-- Past its rows a worker has written all of them. -/
theorem WorkerLoc.PastRows.written {l : WorkerLoc} (h : l.PastRows n) (line column : ℤ) :
    n + 1 ≤ l.goRecvd ∧ Written l line column := by
  cases l <;> first | exact absurd h id | exact ⟨h, trivial⟩

/-- A worker past its rows, which may be taking the next message out of its
mailbox, is past them in the atomic reading too. -/
theorem pastRows_abstract (h : Inv g (view (abstract s))) {al k i : ℕ}
    (hmain : (view (abstract s)).main = .collect n al k) (hi : i ∈ g.workers)
    (hpast : WorkerLoc.PastRows n (s.loc (.worker i))) :
    ((view (abstract s)).worker i).PastRows n := by
  have hgo := (h.flow.channel i hi).go
  rw [hmain] at hgo
  have hright := (h.flow.workerOk i hi).right
  change (abstractLoc s (.worker i)).goRecvd ≤ n + 1 at hgo
  change abstractLoc s (.worker i) ≠ WorkerLoc.wrongMessage at hright
  change WorkerLoc.PastRows n (abstractLoc s (.worker i))
  rcases abstractLoc_cases s (.worker i) with heq | ⟨b, κ, m, hc, hm⟩
  · rw [heq]
    exact hpast
  · change linesthread g i (s.loc (.worker i)) = .recv b κ at hc
    rw [hm] at hgo hright ⊢
    cases hl : (s.loc (.worker i) : WorkerLoc) with
    | recvRange =>
        rw [hl] at hpast
        exact absurd hpast (Nat.not_succ_le_zero n)
    | recvGo v =>
        rw [hl] at hpast hc
        have hgen : n + 1 ≤ v.gen - 1 := hpast
        simp only [linesthread] at hc
        obtain ⟨-, rfl⟩ := Instr.recv.inj hc
        dsimp only at hgo hright ⊢
        split at hgo
        · rename_i hstop
          rw [if_pos hstop]
          exact hgen
        · split at hgo
          · -- no GO of a later generation has been sent yet
            change v.gen - 1 + 1 ≤ n + 1 at hgo
            omega
          · rename_i hstop hother
            rw [if_neg hstop, if_neg hother] at hright
            exact absurd rfl hright
    | _ =>
        rw [hl] at hc
        simp only [linesthread] at hc
        (repeat' split at hc) <;> contradiction

end Round

/-- A round takes `before` by Conway's rule into `after` and changes nothing
else: from the first GO of a round on to any state in which every worker is past
its rows. -/
theorem round_conway {blank : Msg} {s s' : State g.program} {n al al' k : ℕ}
    (hs : Transition.Reachable next (g.start blank) s)
    (hstart : s.loc .main = MainLoc.sendGo n al 1)
    (hs' : Transition.Reachable next s s')
    (hcollect : s'.loc .main = MainLoc.collect n al' k)
    (hpast : ∀ i ∈ g.workers, WorkerLoc.PastRows n (s'.loc (.worker i)))
    (hline : g.lineSize ≤ 39) (hcolumn : g.columnSize ≤ 39)
    (hclear : ClearOutside g.lineSize g.columnSize s.mem.before) :
    (∀ i j : ℕ, i < g.lineSize → j < g.columnSize →
      cell s'.mem.after i j = conwayCell g.lineSize g.columnSize s.mem.before i j) ∧
    (∀ k, ¬ OnBoard g.lineSize g.columnSize k → s'.mem.after k = s.mem.after k) ∧
    s'.mem.before = s.mem.before := by
  have hexcl := exclusive_start g blank
  have hfits := fits_of_le hline hcolumn
  have ha := abstract_reachable hexcl hs
  have ha' := abstract_reachable hexcl (hs.trans hs')
  have hinv' := inv_of_reachable ha'
  have hbefore : s.mem.before = g.hist n := by
    have hmain : (view (abstract s)).main = .sendGo n al 1 :=
      abstract_main hstart (mainCode_ne_recv (by simp))
    have hboards := (memo_of_reachable hfits ha).boards
    rw [hmain] at hboards
    exact hboards.1
  obtain ⟨al₁, k₁, hmain'⟩ := main_of_collect hcollect
  have hbefore' : s'.mem.before = g.hist n := by
    have hboards := (memo_of_reachable hfits ha').boards
    rw [hmain'] at hboards
    exact hboards.1
  refine ⟨fun i j hi hj => ?_, fun k hk => ?_, hbefore'.trans hbefore.symm⟩
  · obtain ⟨w, hw, howns⟩ := g.exists_owns (Int.natCast_nonneg i) (by exact_mod_cast hi)
    have hpastRows := pastRows_abstract hinv' hmain' hw (hpast w hw)
    obtain ⟨hge, hwritten⟩ := hpastRows.written i j
    have hle := (hinv'.flow.channel w hw).go
    rw [hmain'] at hle
    have hgo : ((view (abstract s')).worker w).goRecvd = n + 1 := Nat.le_antisymm hle hge
    have hcell := (memo_of_reachable hfits ha').after w hw i j howns (Int.natCast_nonneg j)
      (by exact_mod_cast hj) (by omega) hwritten
    rw [hgo, g.cell_hist_succ n (Int.natCast_nonneg i) (by exact_mod_cast hi)
      (Int.natCast_nonneg j) (by exact_mod_cast hj)] at hcell
    rw [hbefore] at hclear ⊢
    exact hcell.trans (hclear.nextCell_eq hline hcolumn hi hj)
  · exact (after_of_reachable hfits ha' hk).trans (after_of_reachable hfits ha hk).symm

/-- Three live cells in a row, and one worker. -/
def threeCells : Game where
  lineSize := 1
  columnSize := 3
  numberOfGenerations := 1
  numberOfThreads := 1
  before := fun k => if 0 ≤ k ∧ k ≤ 2 then 1 else 0
  uninit := fun _ _ => { iFrom := 0, type := .range, value1 := 0, value2 := 0 }
  lineSize_le := Nat.le_of_ble_eq_true rfl
  columnSize_le := Nat.le_of_ble_eq_true rfl
  one_le_generations := Nat.one_pos
  one_le_threads := Nat.one_pos
  threads_le_max := Nat.le_of_ble_eq_true rfl
  threads_le_lines := Nat.one_pos

/-- The worker computes its row while `main` waits. -/
def threeCellsRound : List ThreadId :=
  List.replicate 3 (.worker 1) ++ List.replicate 4 .main ++ List.replicate 35 (.worker 1)

/-- The cell in the middle survives. -/
theorem round_conway_threeCells :
    ∃ s s', Transition.run next (List.replicate 5 .main)
        (threeCells.start (threeCells.uninit 0 0)) = some s ∧
      Transition.run next threeCellsRound s = some s' ∧ cell s'.mem.after 0 1 = 1 := by
  have hrun : (Transition.run next (List.replicate 5 .main)
      (threeCells.start (threeCells.uninit 0 0))).map (fun s => (s.loc .main, s.mem.before)) =
        some (MainLoc.sendGo 0 0 1, threeCells.before) := rfl
  obtain ⟨s, hs, hstart⟩ := Option.map_eq_some_iff.mp hrun
  obtain ⟨hgo, hbefore⟩ := Prod.mk.inj hstart
  have hround : (Transition.run next (List.replicate 5 .main ++ threeCellsRound)
      (threeCells.start (threeCells.uninit 0 0))).map
        (fun s => (s.loc .main, s.loc (.worker 1))) =
      some (MainLoc.collect 0 0 1, WorkerLoc.sendGenDone ⟨0, 0, 1, ⟨0, .genDone, 0, 0⟩⟩) := rfl
  rw [Transition.run_append, hs, Option.bind_some] at hround
  obtain ⟨s', hs', hend⟩ := Option.map_eq_some_iff.mp hround
  obtain ⟨hcollect, hworker⟩ := Prod.mk.inj hend
  have hreach := Transition.Reachable.of_run _ Relation.ReflTransGen.refl hs
  have hreach' := Transition.Reachable.of_run _ Relation.ReflTransGen.refl hs'
  have hpast : ∀ i ∈ threeCells.workers, WorkerLoc.PastRows 0 (s'.loc (.worker i)) := by
    intro i hi
    obtain rfl : i = 1 := by
      have hbounds := Game.mem_workers.mp hi
      have hone : threeCells.numberOfThreads = 1 := rfl
      omega
    rw [hworker]
    exact Nat.le_refl 1
  have hclear : ClearOutside threeCells.lineSize threeCells.columnSize s.mem.before := by
    intro line column _ _ hout
    rw [hbefore]
    refine if_neg fun hin => hout ?_
    change 0 ≤ (line : ℤ) * 40 + column ∧ (line : ℤ) * 40 + column ≤ 2 at hin
    change line < 1 ∧ column < 3
    omega
  obtain ⟨hafter, -, -⟩ := round_conway hreach hgo hreach' hcollect hpast (by decide) (by decide)
    hclear
  refine ⟨s, s', hs, hs', (hafter 0 1 (by decide) (by decide)).trans ?_⟩
  rw [hbefore]
  rfl

end Life

end OperatingSystems
