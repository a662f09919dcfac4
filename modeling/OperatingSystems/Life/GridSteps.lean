import OperatingSystems.Life.Grids

/-!
# The matrices in every reachable state

A worker writes only cells of its own rows, with the value of the next
generation, and every other step of a worker leaves both matrices alone; with
the steps of `main` this gives `Memo` in every reachable state.
-/

namespace OperatingSystems

namespace Life

open OperatingSystems.Thread OperatingSystems.Mailbox

variable {g : Game}

section WorkerSteps

variable {s s' : View} {i : ℕ} {l : WorkerLoc}

theorem boards_congr {l : MainLoc} {mem mem' : Memory} (h : Boards g l mem)
    (hbefore : mem'.before = mem.before) (hafter : mem'.after = mem.after) :
    Boards g l mem' := by
  cases l <;> simpa only [Boards, hbefore, hafter] using h

/-- A worker that does not work on its rows has written all of them. -/
theorem written_of_not_access (h : ∀ f, linesthread g i l ≠ .access f) (line column : ℤ) :
    Written l line column := by
  cases l with
  | row v i j =>
      simp only [linesthread] at h
      split at h
      · split at h <;> exact absurd rfl (h _)
      · exact absurd rfl (h _)
  | neighbor v i j k counter =>
      simp only [linesthread] at h
      split at h <;> exact absurd rfl (h _)
  | _ => trivial

theorem rowOk_forGen (v : WorkerVars) : RowOk g i (forGen g v) := by
  unfold forGen
  split <;> trivial

/-- A worker moves on without writing a cell. -/
theorem Memo.workerMoves (hm : Memo g s) (hmain : s'.main = s.main)
    (hworker : s'.worker = Function.update s.worker i l)
    (hbefore : s'.mem.before = s.mem.before) (hafter : s'.mem.after = s.mem.after)
    (hrow : RowOk g i l)
    (hwritten : ∀ line column : ℤ, g.Owns i line → 0 ≤ column → column < g.columnSize →
      1 ≤ l.goRecvd → Written l line column →
        l.goRecvd = (s.worker i).goRecvd ∧ Written (s.worker i) line column) : Memo g s' := by
  refine ⟨?_, fun j hj => ?_, fun j hj => ?_⟩
  · rw [hmain]
    exact boards_congr hm.boards hbefore hafter
  · rw [hworker]
    by_cases hji : j = i
    · subst hji
      simpa using hrow
    · simpa [hji] using hm.row j hj
  · rw [hworker, hafter]
    by_cases hji : j = i
    · subst hji
      simp only [Function.update_self]
      intro line column howns hcol hcol' hgo hw
      obtain ⟨hgo', hw'⟩ := hwritten line column howns hcol hcol' hgo hw
      rw [hgo']
      exact hm.after j hj line column howns hcol hcol' (hgo' ▸ hgo) hw'
    · simpa [hji] using hm.after j hj

/-- A worker writes a cell. -/
theorem Memo.store (hm : Memo g s) (h : Inv g s) (hi : i ∈ g.workers) {v : WorkerVars}
    {line column : ℤ} {k counter : ℕ} (hw : s.worker i = .neighbor v line column k counter)
    (hk : 8 ≤ k) :
    Memo g { s with
      worker := Function.update s.worker i (.row v line (column + 1))
      mem := { s.mem with
        after := store s.mem.after line column (rule s.mem.before line column counter) } } := by
  have hrow := hm.row i hi
  rw [hw] at hrow
  obtain ⟨howns, hcol, hcol', hk', hcounter⟩ := hrow
  obtain rfl : k = 8 := by omega
  have hcolumns := g.columnSize_le
  have hline := howns.on_board hi
  obtain ⟨cGen, al, n, hgen, hmain⟩ :=
    h.main_of_computing hi (by rw [hw]; rfl : (s.worker i).computing = 1)
  have hbefore := hm.before_of_computing h hi (by rw [hw]; rfl : (s.worker i).computing = 1)
  have hvgen : (s.worker i).gen = v.gen := by rw [hw]; rfl
  rw [hvgen] at hbefore hgen
  have hgo : (s.worker i).goRecvd = v.gen - 1 + 1 := by rw [hw]; rfl
  have hvalue : rule s.mem.before line column counter =
      cell (g.hist (v.gen - 1 + 1)) line column := by
    rw [g.cell_hist_succ _ hline.1 hline.2 hcol hcol', hbefore, hcounter]
    rfl
  refine ⟨?_, fun j hj => ?_, fun j hj line' column' howns' hcol₀ hcol₁ hgo' hwritten => ?_⟩
  · -- `main` is waiting, so it knows nothing of `after`
    have hboards := hm.boards
    rcases hmain with hmain | hmain <;> rw [hmain] at hboards <;>
      simpa only [hmain, Boards] using hboards
  · by_cases hji : j = i
    · subst hji
      simp only [Function.update_self]
      have hvars := (h.flow.workerOk j hj).varsOk (by rw [hw]; rfl : (s.worker j).vars? = some v)
      exact ⟨hvars.lineFrom ▸ howns.1, by omega⟩
    · simpa [hji] using hm.row j hj
  · dsimp only at hgo' hwritten ⊢
    by_cases hji : j = i
    · subst hji
      simp only [Function.update_self] at hgo' hwritten ⊢
      have hgoRow : WorkerLoc.goRecvd (.row v line (column + 1)) = v.gen - 1 + 1 := rfl
      rw [hgoRow]
      rcases past_succ_column.mp hwritten with hpast | ⟨rfl, rfl⟩
      · rw [cell_store_of_ne _ _ hcol (by omega) hcol₀ (by omega), ← hgo]
        · exact hm.after j hj line' column' howns' hcol₀ hcol₁ (by omega) (by rw [hw]; exact hpast)
        · rintro ⟨rfl, rfl⟩
          unfold Past at hpast
          omega
      · rw [cell_store_self, hvalue]
    · simp only [Function.update_of_ne hji] at hgo' hwritten ⊢
      rw [cell_store_of_ne _ _ hcol (by omega) hcol₀ (by omega)]
      · exact hm.after j hj line' column' howns' hcol₀ hcol₁ hgo' hwritten
      · rintro ⟨rfl, -⟩
        exact hji (howns'.unique hj hi howns)

/-- Every move of `main` keeps what is known of the matrices. -/
theorem Memo.mainMove (hm : Memo g s) (h : Inv g s) (hmove : MainMove g s s') : Memo g s' := by
  obtain ⟨hsend, hrecv, hcreate, hjoin⟩ := boards_of_code hm.boards
  cases hmove with
  | send b m l hi hb => exact ⟨hsend b m l hi, hm.row, hm.after⟩
  | recv b l m hi hb => exact ⟨hrecv b l m hi, hm.row, hm.after⟩
  | access f hi =>
      refine ⟨hm.boards_of_access h hi, hm.row, ?_⟩
      dsimp only
      rw [after_of_mainCode hi]
      exact hm.after
  | create u l hi => exact ⟨hcreate u l hi, hm.row, hm.after⟩
  | join u l hi hu => exact ⟨hjoin u l hi, hm.row, hm.after⟩
  | exit hi => exact ⟨hm.boards, hm.row, hm.after⟩

/-- The steps of a worker on shared memory keep what is known of the matrices. -/
theorem Memo.workerAccess (hm : Memo g s) (hfits : Fits g.lineSize g.columnSize) (h : Inv g s)
    (hi : i ∈ g.workers)
    {f : Memory → Memory × WorkerLoc} (hcode : linesthread g i (s.worker i) = .access f) :
    Memo g { s with
      worker := Function.update s.worker i (f s.mem).2
      mem := (f s.mem).1 } := by
  have hok := h.flow.workerOk i hi
  have hrow := hm.row i hi
  cases hw : s.worker i with
  | row v line column =>
      rw [hw] at hcode hrow
      obtain ⟨hline, hcol⟩ := hrow
      have hvars := hok.varsOk (by rw [hw]; rfl : (s.worker i).vars? = some v)
      simp only [linesthread] at hcode
      split at hcode
      · rename_i hle
        split at hcode
        · rename_i hlt
          obtain rfl := Instr.access.inj hcode
          refine hm.workerMoves rfl rfl rfl rfl ?_ fun l c _ _ _ _ hwr => ⟨by rw [hw]; rfl, ?_⟩
          · exact ⟨⟨hvars.lineFrom ▸ hline, hvars.lineTo ▸ hle⟩, hcol, hlt, Nat.zero_le _, rfl⟩
          · rw [hw]
            exact hwr
        · rename_i hge
          obtain rfl := Instr.access.inj hcode
          refine hm.workerMoves rfl rfl rfl rfl ?_ fun l c _ hc hc' _ hwr => ⟨by rw [hw]; rfl, ?_⟩
          · exact ⟨by omega, le_refl _⟩
          · rw [hw]
            exact (past_succ_line (by omega) hc hc').mp hwr
      · rename_i hgt
        obtain rfl := Instr.access.inj hcode
        refine hm.workerMoves rfl rfl rfl rfl trivial fun l c howns _ _ _ _ =>
          ⟨by rw [hw]; rfl, ?_⟩
        rw [hw]
        have hle := howns.2
        rw [← hvars.lineTo] at hle
        exact .inl (by omega)
  | neighbor v line column k counter =>
      rw [hw] at hcode hrow
      obtain ⟨howns, hcol, hcol', hk, hcounter⟩ := hrow
      simp only [linesthread] at hcode
      split at hcode
      · rename_i hlt
        obtain rfl := Instr.access.inj hcode
        refine hm.workerMoves rfl rfl rfl rfl ?_ fun l c _ _ _ _ hwr => ⟨by rw [hw]; rfl, ?_⟩
        · have hbefore := hm.before_of_computing h hi (by rw [hw]; rfl : (s.worker i).computing = 1)
          have hvgen : (s.worker i).gen = v.gen := by rw [hw]; rfl
          rw [hvgen] at hbefore
          refine ⟨howns, hcol, hcol', hlt, ?_⟩
          rw [neighborTest_fromBefore hfits _ (howns.on_board hi).2 hcol', hbefore, hcounter]
          rfl
        · rw [hw]
          exact hwr
      · rename_i hge
        obtain rfl := Instr.access.inj hcode
        exact hm.store h hi hw (by omega)
  | incrementCount v =>
      rw [hw] at hcode
      simp only [linesthread] at hcode
      obtain rfl := Instr.access.inj hcode
      exact hm.workerMoves rfl rfl rfl rfl trivial fun _ _ _ _ _ _ _ => by
        rw [hw]
        exact ⟨rfl, trivial⟩
  | testCount v =>
      rw [hw] at hcode
      simp only [linesthread] at hcode
      obtain rfl := Instr.access.inj hcode
      dsimp only
      split
      · exact hm.workerMoves rfl rfl rfl rfl trivial fun _ _ _ _ _ _ _ => by
          rw [hw]
          exact ⟨rfl, trivial⟩
      · exact hm.workerMoves rfl rfl rfl rfl trivial fun _ _ _ _ _ _ _ => by
          rw [hw]
          exact ⟨rfl, trivial⟩
  | postAll v k =>
      rw [hw] at hcode
      simp only [linesthread] at hcode
      split at hcode
      · contradiction
      · obtain rfl := Instr.access.inj hcode
        exact hm.workerMoves rfl rfl rfl rfl trivial fun _ _ _ _ _ _ _ => by
          rw [hw]
          exact ⟨rfl, trivial⟩
  | _ =>
      rw [hw] at hcode
      simp only [linesthread] at hcode
      contradiction

/-- The place of a worker after a receive. -/
theorem rowOk_of_recv {b : ℕ} {k : Msg → WorkerLoc} (hok : WorkerOk g i l)
    (hi : linesthread g i l = .recv b k) (m : Msg) :
    RowOk g i (k m) ∧ ∀ line column : ℤ, g.Owns i line → 0 ≤ column → 1 ≤ (k m).goRecvd →
      Written (k m) line column → (k m).goRecvd = l.goRecvd := by
  cases l with
  | recvRange =>
      simp only [linesthread] at hi
      obtain ⟨rfl, rfl⟩ := Instr.recv.inj hi
      dsimp only
      split
      · exact ⟨trivial, fun _ _ _ _ _ _ => rfl⟩
      · refine ⟨rowOk_forGen _, fun _ _ _ _ hgo _ => ?_⟩
        rw [forGen_goRecvd] at hgo
        simp at hgo
  | recvGo v =>
      simp only [linesthread] at hi
      obtain ⟨rfl, rfl⟩ := Instr.recv.inj hi
      have hvars := hok.varsOk rfl
      dsimp only
      split
      · exact ⟨trivial, fun _ _ _ _ _ _ => rfl⟩
      · split
        · refine ⟨⟨le_refl _, le_refl _⟩, fun line column howns hcol _ hwr => ?_⟩
          -- no cell of the worker's rows comes before its first line
          have hfrom := howns.1
          rw [← hvars.lineFrom] at hfrom
          change Past v.lineFrom 0 line column at hwr
          unfold Past at hwr
          omega
        · exact ⟨trivial, fun _ _ _ _ hgo _ => by simp [WorkerLoc.goRecvd, WorkerLoc.gen,
            WorkerLoc.vars?, WorkerLoc.computing] at hgo⟩
  | _ =>
      simp only [linesthread] at hi
      repeat' split at hi
      all_goals contradiction

/-- A worker that sends, waits or posts is not in its rows, neither before nor
after. -/
theorem Memo.workerStays (hm : Memo g s) (hcode : ∀ f, linesthread g i (s.worker i) ≠ .access f)
    (hmain : s'.main = s.main) (hworker : s'.worker = Function.update s.worker i l)
    (hmem : s'.mem = s.mem) (hgo : l.goRecvd = (s.worker i).goRecvd) (hrow : RowOk g i l) :
    Memo g s' :=
  hm.workerMoves hmain hworker (by rw [hmem]) (by rw [hmem]) hrow
    fun line column _ _ _ _ _ => ⟨hgo, written_of_not_access hcode line column⟩

theorem rowOk_of_send {b : ℕ} {m : Msg} {l' : WorkerLoc}
    (hi : linesthread g i l = .send b m l') : RowOk g i l' := by
  cases l <;> simp only [linesthread] at hi
  all_goals
    repeat' split at hi
    all_goals first | contradiction | obtain ⟨-, -, rfl⟩ := Instr.send.inj hi
  · exact rowOk_forGen _
  · trivial

/-- Every move of a worker keeps what is known of the matrices. -/
theorem Memo.workerMove (hm : Memo g s) (hfits : Fits g.lineSize g.columnSize) (h : Inv g s)
    (hi : i ∈ g.workers) (hmove : WorkerMove g i s s') : Memo g s' := by
  have hok := h.flow.workerOk i hi
  cases hmove with
  | send b m l hcode hb =>
      have hc := (workerSend_of_code hok hcode).2
      have haccess : ∀ f, linesthread g i (s.worker i) ≠ .access f := by simp [hcode]
      exact hm.workerStays haccess rfl rfl rfl hc.goRecvd (rowOk_of_send hcode)
  | recv b l m hcode hb =>
      have haccess : ∀ f, linesthread g i (s.worker i) ≠ .access f := by simp [hcode]
      obtain ⟨hrow, hgo⟩ := rowOk_of_recv hok hcode m
      exact hm.workerMoves rfl rfl rfl rfl hrow fun line column howns hcol _ hgo' hwr =>
        ⟨hgo line column howns hcol hgo' hwr, written_of_not_access haccess line column⟩
  | waitGenDone l hcode hq =>
      have haccess : ∀ f, linesthread g i (s.worker i) ≠ .access f := by simp [hcode]
      obtain ⟨hc, v, -, rfl⟩ := lockCount_of_wait hok hcode
      exact hm.workerStays haccess rfl rfl rfl hc.goRecvd trivial
  | waitAllDone l hcode hq =>
      have haccess : ∀ f, linesthread g i (s.worker i) ≠ .access f := by simp [hcode]
      obtain ⟨hc, v, w, -, rfl⟩ := waitAll_of_wait hok hcode
      exact hm.workerStays haccess rfl rfl rfl hc.goRecvd trivial
  | postGenDone l hcode =>
      have haccess : ∀ f, linesthread g i (s.worker i) ≠ .access f := by simp [hcode]
      obtain ⟨hc, v, -, rfl⟩ := unlockCount_of_post hok hcode
      exact hm.workerStays haccess rfl rfl rfl hc.goRecvd trivial
  | postAllDone l hcode =>
      have haccess : ∀ f, linesthread g i (s.worker i) ≠ .access f := by simp [hcode]
      obtain ⟨hc, v, k, -, rfl⟩ := postAll_of_post hok hcode
      exact hm.workerStays haccess rfl rfl rfl hc.goRecvd trivial
  | access f hcode => exact hm.workerAccess hfits h hi hcode
  | exit hcode => exact ⟨hm.boards, hm.row, hm.after⟩
  | abort hcode => exact ⟨hm.boards, hm.row, hm.after⟩

/-- The matrices of every reachable state, on a board that fits. -/
theorem memo_of_reachable (hfits : Fits g.lineSize g.columnSize) {blank : Msg}
    {a : Atomic g.program} (ha : Transition.Reachable atomicNext (g.init blank) a) :
    Memo g (view a) := by
  refine ha.invariant (I := fun a => Memo g (view a)) ?_ ?_
  · rw [Game.init, view_start]
    exact ⟨rfl, fun _ _ => trivial, fun _ _ _ _ _ _ _ hgo => by
      simp [View.start, WorkerLoc.goRecvd, WorkerLoc.gen, WorkerLoc.vars?,
        WorkerLoc.computing] at hgo⟩
  · intro t a a' hreach hm hnext
    have hinv := inv_of_reachable hreach
    obtain ⟨-, hrun, hmove⟩ := move_of_step hnext
    cases t with
    | main => exact hm.mainMove hinv hmove
    | worker i =>
        have hi := hinv.lives.mem_workers hinv.flow.mainOk hrun
        exact hm.workerMove hfits hinv hi hmove

end WorkerSteps

end Life

end OperatingSystems
