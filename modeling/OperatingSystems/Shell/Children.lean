import OperatingSystems.Shell.Iteration
import OperatingSystems.Shell.Reaping

/-!
# The children that are left

The shell reaps a child for every entry it erases and for every foreground command,
though not always the child that the entry or the command is about. So the children
that have not been reaped are as many as the entries of the vector, with one more
while a command is being entered. `wait(0)` therefore always has a child to wait
for, and at the end of `shellMode` no child is left.

`exit` comes to this end only if no entry of the vector has been reaped by a
`wait(0)`. Otherwise the loop goes on for ever, and some child that is not in the
vector is never reaped.
-/

namespace OperatingSystems

namespace Shell

open OperatingSystems

/-- The children that have not been reaped. -/
def State.unreaped (s : State) : Finset ℕ := s.forked.toFinset.filter (s.status · ≠ .reaped)

/-- The children that the shell still has to reap. -/
def State.owed (s : State) : ℕ := s.processes.length + s.pending.toList.length

section Counts

variable {s : State}

theorem mem_unreaped {pid : ℕ} :
    pid ∈ s.unreaped ↔ pid ∈ s.forked ∧ s.status pid ≠ .reaped := by
  simp [State.unreaped]

theorem unreaped_congr {s' : State} (hforked : s'.forked = s.forked)
    (hstatus : ∀ pid ∈ s.forked, s'.status pid = .reaped ↔ s.status pid = .reaped) :
    s'.unreaped = s.unreaped := by
  ext pid
  rw [mem_unreaped, mem_unreaped, hforked]
  exact and_congr_right fun hmem => not_congr (hstatus pid hmem)

/-- One child less is left. -/
theorem card_unreaped_reap (s' : State) {pid : ℕ} (hzombie : s.Zombie pid)
    (hforked : s'.forked = s.forked)
    (hstatus : s'.status = Function.update s.status pid .reaped) :
    s'.unreaped.card + 1 = s.unreaped.card := by
  have herase : s'.unreaped = s.unreaped.erase pid := by
    ext q
    rw [Finset.mem_erase, mem_unreaped, mem_unreaped, hforked, hstatus]
    by_cases hq : q = pid
    · simp [hq]
    · simp [hq]
  have hmem : pid ∈ s.unreaped := mem_unreaped.mpr ⟨hzombie.1, by simp [hzombie.2]⟩
  rw [herase, Finset.card_erase_add_one hmem]

/-- A fork leaves one child more. -/
theorem card_unreaped_launch {pid : ℕ} (after : After) (hfresh : pid ∉ s.forked) :
    (s.launch pid after).unreaped.card = s.unreaped.card + 1 := by
  have hinsert : (s.launch pid after).unreaped = insert pid s.unreaped := by
    ext q
    rw [Finset.mem_insert, mem_unreaped, mem_unreaped]
    by_cases hq : q = pid
    · simp [State.launch, hq]
    · simp [State.launch, hq]
  have hnot : pid ∉ s.unreaped := fun hmem => hfresh (mem_unreaped.mp hmem).1
  rw [hinsert, Finset.card_insert_of_notMem hnot]

/-- Every step keeps the books. -/
theorem card_unreaped_move (hs : WellFormed s) (h : s.unreaped.card = s.owed) {e : Event}
    {s' : State} (hmove : Move s e s') : s'.unreaped.card = s'.owed := by
  cases hmove with
  | background pid name hpc hfresh =>
      have hcard := card_unreaped_launch (.background ⟨pid, name⟩) hfresh
      rw [hcard, h, State.owed, State.owed, State.pending, hpc]
      rfl
  | foreground pid hpc hfresh =>
      have hcard := card_unreaped_launch (.foreground pid) hfresh
      rw [hcard, h, State.owed, State.owed, State.pending, hpc]
      rfl
  | jobs pid hpc => exact h
  | cd pid hpc => exact h
  | exit pid hpc =>
      rw [State.owed, State.pending, hpc] at h
      exact h
  | check i after hpc =>
      have hpending : s.pending = after.child := by rw [State.pending, hpc]
      rcases checkProcess_cases s i with heq | ⟨p, hp, hzombie, heq⟩
      · rw [heq]
        rw [State.owed, hpending] at h
        exact h
      · have hcard := card_unreaped_reap (s.complete i p) hzombie rfl rfl
        obtain ⟨hi, -⟩ := List.getElem?_eq_some_iff.mp hp
        have hlen : (s.processes.eraseIdx i).length = s.processes.length - 1 :=
          List.length_eraseIdx_of_lt hi
        rw [heq]
        rw [State.owed, hpending] at h
        change (s.complete i p).unreaped.card =
          (s.processes.eraseIdx i).length + after.child.toList.length
        omega
  | finish after hpc =>
      have hpending : s.pending = after.child := by rw [State.pending, hpc]
      rw [State.owed, hpending] at h
      cases after with
      | background p =>
          have hlen : (s.processes ++ [p]).length = s.processes.length + 1 := List.length_append
          change s.unreaped.card = (s.processes ++ [p]).length + 0
          rw [hlen, h]
          rfl
      | foreground pid => exact h
      | exit =>
          unfold State.finish
          dsimp only
          split
          · exact h
          · exact h
  | wait pid child hpc hzombie =>
      have hcard := card_unreaped_reap { s.reap child with pc := .prompt } hzombie rfl rfl
      rw [State.owed, State.pending, hpc] at h
      change _ = s.processes.length + 0
      have hone : (some pid).toList.length = 1 := rfl
      dsimp only at h
      omega
  | waitFails pid hpc hnone =>
      obtain ⟨hforked, hreaped, -⟩ := hs.pending pid (by rw [State.pending, hpc])
      exact absurd (hnone pid hforked) hreaped
  | terminate child hforked hrunning =>
      have hsame : ({ s with status := Function.update s.status child .zombie } : State).unreaped =
          s.unreaped := by
        refine unreaped_congr rfl fun q _ => ?_
        by_cases hq : q = child
        · simp [hq, hrunning]
        · simp [hq]
      rw [hsame]
      exact h

theorem card_unreaped_of_run {ts : List Event} (hrun : Transition.run next ts start = some s) :
    s.unreaped.card = s.owed := by
  have hreach := Transition.Reachable.of_run ts Relation.ReflTransGen.refl hrun
  have hinvariant : WellFormed s ∧ s.unreaped.card = s.owed := by
    refine hreach.invariant (I := fun s => WellFormed s ∧ s.unreaped.card = s.owed)
      ⟨wellFormed_start, rfl⟩ fun e a a' _ ha hnext => ?_
    have hmove := next_eq_some_iff.mp hnext
    exact ⟨ha.1.move hmove, card_unreaped_move ha.1 ha.2 hmove⟩
  exact hinvariant.2

/-- `shellMode` ends with an empty vector. -/
theorem processes_of_exited {ts : List Event} (hrun : Transition.run next ts start = some s)
    (hpc : s.pc = .exited) : s.processes = [] := by
  have hreach := Transition.Reachable.of_run ts Relation.ReflTransGen.refl hrun
  refine hreach.invariant (I := fun s => s.pc = .exited → s.processes = [])
    (fun h => by contradiction) (fun e a a' _ ha hnext => ?_) hpc
  cases next_eq_some_iff.mp hnext with
  | jobs pid hprompt => exact ha
  | cd pid hprompt => exact ha
  | terminate child hforked hrunning => exact ha
  | finish after hscan =>
      cases after with
      | background p => exact fun h => by contradiction
      | foreground pid => exact fun h => by contradiction
      | exit =>
          unfold State.finish
          dsimp only
          split
          · exact fun _ => ‹_›
          · exact fun h => by contradiction
  | _ => exact fun h => by contradiction

end Counts

/-- In every run the children that have not been reaped are as many as the entries
of the vector and the command being entered. So `wait(0)` never fails; at a prompt
the vector lists as many jobs as there are children left, and it is right exactly if
it lists these children; and at the end of `shellMode` every child has been reaped. -/
theorem unreaped_of_run {ts : List Event} {s : State}
    (hrun : Transition.run next ts start = some s) :
    s.unreaped.card = s.processes.length + s.pending.toList.length ∧
      next .waitFails s = none ∧
      (s.pc = .prompt → s.unreaped.card = s.processes.length ∧
        (TableSound s ↔ s.pids.toFinset = s.unreaped)) ∧
      (s.pc = .exited → ∀ pid ∈ s.forked, s.status pid = .reaped) := by
  have hs := WellFormed.of_run hrun
  have hcard := card_unreaped_of_run hrun
  refine ⟨hcard, ?_, fun hpc => ?_, fun hpc pid hforked => ?_⟩
  · by_contra hfails
    obtain ⟨s', hnext⟩ := Option.ne_none_iff_exists'.mp hfails
    cases next_eq_some_iff.mp hnext with
    | waitFails pid hpc hnone =>
        obtain ⟨hforked, hreaped, -⟩ := hs.pending pid (by rw [State.pending, hpc])
        exact absurd (hnone pid hforked) hreaped
  · rw [State.owed, State.pending, hpc] at hcard
    refine ⟨hcard, fun hsound => ?_, fun heq pid hpid => ?_⟩
    · apply Finset.eq_of_subset_of_card_le
      · intro pid hpid
        exact mem_unreaped.mpr (hsound pid (List.mem_toFinset.mp hpid))
      · rw [hcard, List.toFinset_card_of_nodup hs.nodup, State.pids, List.length_map]
        exact le_refl _
    · rw [← mem_unreaped, ← heq]
      exact List.mem_toFinset.mpr hpid
  · rw [State.owed, State.pending, hpc, processes_of_exited hrun hpc] at hcard
    have hnil := Finset.card_eq_zero.mp hcard
    by_contra hne
    have hmem : pid ∈ s.unreaped := mem_unreaped.mpr ⟨hforked, hne⟩
    rw [hnil] at hmem
    exact absurd hmem (Finset.notMem_empty pid)

/-- A job that is listed right, and one that is waited for. -/
theorem unreaped_of_run_quietRun :
    ∃ s, Transition.run next quietRun start = some s ∧ s.unreaped.card = 1 ∧
      s.pids.toFinset = s.unreaped := by
  have hrun : Transition.run next quietRun start = some _ := rfl
  obtain ⟨-, -, hprompt, -⟩ := unreaped_of_run hrun
  obtain ⟨hcard, hiff⟩ := hprompt rfl
  exact ⟨_, hrun, hcard, hiff.mp (by decide)⟩

section Exit

variable {s : State}

/-- After `exit` no `wait(0)` is called. -/
theorem AtExit.not_steals (h : AtExit s) {e : Event} {s' : State} (hmove : Move s e s') :
    ¬ Steals s e := by
  cases hmove with
  | wait pid child hpc hzombie => rcases h with h | ⟨i, h⟩ <;> rw [h] at hpc <;> contradiction
  | _ => exact id

/-- After `exit` the vector stays right if it is, and the entries that are wrong stay
in it. -/
theorem AtExit.tableSound_iff (h : AtExit s) (hs : WellFormed s) {e : Event} {s' : State}
    (hmove : Move s e s') : TableSound s' ↔ TableSound s := by
  refine ⟨fun hsound pid hpid => ⟨hs.forked pid hpid, fun hreaped => ?_⟩,
    fun hsound => hsound.move hs hmove (h.not_steals hmove)⟩
  have hprompt : s.pc ≠ .prompt ∧ ∀ q, s.pc ≠ .waiting q := by
    rcases h with h | ⟨i, h⟩ <;> rw [h] <;> simp
  -- a reaped entry is not erased, and not revived
  have hstays : pid ∈ s'.pids ∧ s'.status pid = .reaped := by
    cases hmove with
    | background q name hpc hfresh => exact absurd hpc hprompt.1
    | foreground q hpc hfresh => exact absurd hpc hprompt.1
    | jobs q hpc => exact absurd hpc hprompt.1
    | cd q hpc => exact absurd hpc hprompt.1
    | exit q hpc => exact absurd hpc hprompt.1
    | wait q child hpc hzombie => exact absurd hpc (hprompt.2 q)
    | waitFails q hpc hnone => exact absurd hpc (hprompt.2 q)
    | check i after hpc =>
        rcases checkProcess_cases s i with heq | ⟨p, hp, hzombie, heq⟩
        · rw [heq]
          exact ⟨hpid, hreaped⟩
        · have hne : pid ≠ p.pid := by
            rintro rfl
            rw [hzombie.2] at hreaped
            contradiction
          obtain ⟨q, hq, rfl⟩ := List.mem_map.mp hpid
          obtain ⟨hi, rfl⟩ := List.getElem?_eq_some_iff.mp hp
          have hperm := List.getElem_cons_eraseIdx_perm hi
          have hmem := (List.mem_cons.mp (hperm.mem_iff.mpr hq)).resolve_left
            fun heq => hne (congrArg Process.pid heq)
          rw [heq]
          exact ⟨List.mem_map_of_mem hmem, by simp [State.complete, State.reap, hne, hreaped]⟩
    | finish after hpc =>
        rcases h with h | ⟨i, h⟩
        · rw [h] at hpc
          contradiction
        · rw [h] at hpc
          obtain ⟨-, rfl⟩ := Pc.scan.inj hpc
          unfold State.finish
          dsimp only
          split
          · exact ⟨hpid, hreaped⟩
          · exact ⟨hpid, hreaped⟩
    | terminate child hforked hrunning =>
        have hne : pid ≠ child := by
          rintro rfl
          rw [hrunning] at hreaped
          contradiction
        exact ⟨hpid, by simp [hne, hreaped]⟩
  exact absurd hstays.2 (hsound pid hstays.1).2

/-- What holds on after `exit`. -/
theorem AtExit.of_run {us : List Event} {s' : State} (h : AtExit s) (hs : WellFormed s)
    (hrun : Transition.run next us s = some s') :
    AtExit s' ∧ WellFormed s' ∧ (TableSound s' ↔ TableSound s) := by
  have hreach := Transition.Reachable.of_run us Relation.ReflTransGen.refl hrun
  refine hreach.invariant
    (I := fun s' => AtExit s' ∧ WellFormed s' ∧ (TableSound s' ↔ TableSound s))
    ⟨h, hs, Iff.rfl⟩ fun e a a' _ ha hnext => ?_
  have hmove := next_eq_some_iff.mp hnext
  obtain ⟨hexit, hwell, hsound⟩ := ha
  exact ⟨hexit.move hmove, hwell.move hmove, (hexit.tableSound_iff hwell hmove).trans hsound⟩

/-- All children may terminate before the shell goes on. -/
theorem exists_allTerminated (s : State) :
    ∃ us s', Transition.run next us s = some s' ∧ AllTerminated s' ∧ s'.pc = s.pc := by
  induction hn : s.runningChildren.card using Nat.strong_induction_on generalizing s with
  | _ n ih =>
      by_cases hall : AllTerminated s
      · exact ⟨[], s, rfl, hall, rfl⟩
      · unfold AllTerminated at hall
        push Not at hall
        obtain ⟨child, hforked, hrunning⟩ := hall
        have hmove := Move.terminate child hforked hrunning
        obtain ⟨us, s', hrun, hall', hpc⟩ :=
          ih _ (hn ▸ card_runningChildren_terminate hforked hrunning) _ rfl
        refine ⟨.terminate child :: us, s', ?_, hall', hpc⟩
        rw [Transition.run, next_eq_some_iff.mpr hmove, Option.bind_some, hrun]

theorem allTerminated_of_run_polls {k : ℕ} {s' : State} (h : AllTerminated s)
    (hrun : Transition.run next (List.replicate k .poll) s = some s') : AllTerminated s' := by
  induction k generalizing s with
  | zero =>
      obtain rfl := Option.some.inj hrun
      exact h
  | succ k ih =>
      rw [List.replicate_succ, Transition.run, Option.bind_eq_some_iff] at hrun
      obtain ⟨t, hnext, hrun⟩ := hrun
      refine ih (fun pid hforked => ?_) hrun
      cases next_eq_some_iff.mp hnext with
      | check i after hpc =>
          rcases checkProcess_cases s i with heq | ⟨p, hp, hzombie, heq⟩
          · rw [heq] at hforked ⊢
            exact h pid hforked
          · rw [heq] at hforked ⊢
            by_cases hpid : pid = p.pid
            · simp [State.complete, State.reap, hpid]
            · simpa [State.complete, State.reap, hpid] using h pid hforked
      | finish after hpc =>
          cases after with
          | background p => exact h pid hforked
          | foreground q => exact h pid hforked
          | exit =>
              unfold State.finish at hforked ⊢
              dsimp only at hforked ⊢
              split at hforked
              · rw [if_pos ‹_›]
                exact h pid hforked
              · rw [if_neg ‹_›]
                exact h pid hforked

/-- With a vector that is right the loop on `exit` can end. -/
theorem exists_exited (hexit : AtExit s) (hs : WellFormed s) (hsound : TableSound s) :
    ∃ us s', Transition.run next us s = some s' ∧ s'.pc = .exited := by
  rcases hexit with hpc | ⟨i, hpc⟩
  · exact ⟨[], s, rfl, hpc⟩
  · obtain ⟨us, t, hrun, hall, htpc⟩ := exists_allTerminated s
    have hpolls := run_polls (htpc.trans hpc)
    have hall' := allTerminated_of_run_polls hall hpolls
    have hrun' : Transition.run next (us ++ List.replicate i .poll) s =
        some { State.checkBelow i t with pc := .scan 0 .exit } := by
      rw [Transition.run_append, hrun, Option.bind_some, hpolls]
    obtain ⟨-, hs', hsound'⟩ := AtExit.of_run (.inr ⟨i, hpc⟩) hs hrun'
    obtain ⟨k, s', hlast, hexited⟩ := exists_exit rfl
      (processes_checkFinishedProcesses hs' (hsound'.mpr hsound) hall')
    refine ⟨us ++ List.replicate i .poll ++ List.replicate k .poll, s', ?_, hexited⟩
    rw [Transition.run_append, hrun', Option.bind_some, hlast]

/-- `exit` can come to its end exactly if no entry of the vector has been reaped.
Otherwise every run goes on polling for ever, and in each of its states some child
that is in no entry has not been reaped. -/
theorem exits_iff {ts : List Event} (hrun : Transition.run next ts start = some s)
    (hexit : AtExit s) :
    ((∃ us s', Transition.run next us s = some s' ∧ s'.pc = .exited) ↔ TableSound s) ∧
      (¬ TableSound s → ∀ us s', Transition.run next us s = some s' →
        (next .poll s').isSome = true ∧
          ∃ pid ∈ s'.forked, pid ∉ s'.pids ∧ s'.status pid ≠ .reaped) := by
  have hs := WellFormed.of_run hrun
  have hnever : ¬ TableSound s → ∀ us s', Transition.run next us s = some s' →
      s'.pc ≠ .exited := by
    intro hnot us s' hrun' hpc
    obtain ⟨-, -, hiff⟩ := hexit.of_run hs hrun'
    have hrun'' : Transition.run next (ts ++ us) start = some s' := by
      rw [Transition.run_append, hrun, Option.bind_some, hrun']
    refine hnot (hiff.mp fun pid hpid => ?_)
    rw [State.pids, processes_of_exited hrun'' hpc] at hpid
    exact absurd hpid List.not_mem_nil
  refine ⟨⟨?_, exists_exited hexit hs⟩, fun hnot us s' hrun' => ?_⟩
  · rintro ⟨us, s', hrun', hpc⟩
    by_contra hnot
    exact hnever hnot us s' hrun' hpc
  · obtain ⟨hexit', hs', hiff⟩ := hexit.of_run hs hrun'
    obtain ⟨i, hpc⟩ := hexit'.resolve_left (hnever hnot us s' hrun')
    refine ⟨?_, ?_⟩
    · cases i with
      | zero => simp [next, hpc]
      | succ i => simp [next, hpc]
    · have hrun'' : Transition.run next (ts ++ us) start = some s' := by
        rw [Transition.run_append, hrun, Option.bind_some, hrun']
      have hcard := card_unreaped_of_run hrun''
      rw [State.owed, State.pending, hpc] at hcard
      have hlen : s'.pids.toFinset.card = s'.processes.length := by
        rw [List.toFinset_card_of_nodup hs'.nodup, State.pids, List.length_map]
      have hnsub : ¬ s'.unreaped ⊆ s'.pids.toFinset := by
        intro hsub
        have heq := Finset.eq_of_subset_of_card_le hsub (by rw [hlen, hcard]; exact le_refl _)
        refine hnot (hiff.mp fun pid hpid => mem_unreaped.mp ?_)
        rw [heq]
        exact List.mem_toFinset.mpr hpid
      obtain ⟨pid, hmem, hpids⟩ := Finset.not_subset.mp hnsub
      obtain ⟨hforked, hreaped⟩ := mem_unreaped.mp hmem
      exact ⟨pid, hforked, fun h => hpids (List.mem_toFinset.mpr h), hreaped⟩

/-- With the job that `wait(0)` has reaped `exit` goes on for ever. -/
theorem exits_iff_stolenRun :
    ∃ s, Transition.run next (stolenRun ++ [.enter .exit 0]) start = some s ∧ AtExit s ∧
      ∀ us s', Transition.run next us s = some s' → (next .poll s').isSome = true := by
  have hrun : Transition.run next (stolenRun ++ [.enter .exit 0]) start = some _ := rfl
  refine ⟨_, hrun, .inr ⟨0, rfl⟩, fun us s' hrun' => ?_⟩
  exact ((exits_iff hrun (.inr ⟨0, rfl⟩)).2 (by decide) us s' hrun').1

end Exit

end Shell

end OperatingSystems
