import Mathlib.Data.Finset.Card
import OperatingSystems.Shell.Stealing

/-!
# An iteration of the loop of the shell

Up to the command `exit`, every iteration comes to the next prompt: each step of the
shell brings it closer, every child terminates at most once, and until the prompt
there is always a step that can be taken. On `exit` the loop over the vector need
not end.
-/

namespace OperatingSystems

namespace Shell

open OperatingSystems

/-- The shell has read `exit`. -/
def AtExit (s : State) : Prop := s.pc = .exited ∨ ∃ i, s.pc = .scan i .exit

variable {s : State}

theorem AtExit.move (h : AtExit s) {e : Event} {s' : State} (hmove : Move s e s') :
    AtExit s' := by
  have hpc : s.pc ≠ .prompt ∧ ∀ pid, s.pc ≠ .waiting pid := by
    rcases h with h | ⟨i, h⟩ <;> rw [h] <;> simp
  cases hmove with
  | background pid name hprompt hfresh => exact absurd hprompt hpc.1
  | foreground pid hprompt hfresh => exact absurd hprompt hpc.1
  | jobs pid hprompt => exact absurd hprompt hpc.1
  | cd pid hprompt => exact absurd hprompt hpc.1
  | exit pid hprompt => exact absurd hprompt hpc.1
  | check i after hscan =>
      rcases h with h | ⟨j, h⟩
      · rw [h] at hscan
        contradiction
      · rw [h] at hscan
        obtain ⟨-, rfl⟩ := Pc.scan.inj hscan
        exact .inr ⟨i, rfl⟩
  | finish after hscan =>
      rcases h with h | ⟨j, h⟩
      · rw [h] at hscan
        contradiction
      · rw [h] at hscan
        obtain ⟨-, rfl⟩ := Pc.scan.inj hscan
        unfold State.finish
        dsimp only
        split
        · exact .inl rfl
        · exact .inr ⟨_, rfl⟩
  | wait pid child hwaiting hzombie => exact absurd hwaiting (hpc.2 pid)
  | waitFails pid hwaiting hnone => exact absurd hwaiting (hpc.2 pid)
  | terminate child hforked hrunning => exact h

theorem not_atExit_of_prompt (hpc : s.pc = .prompt) : ¬ AtExit s := by
  rintro (h | ⟨i, h⟩) <;> rw [hpc] at h <;> contradiction

/-- The steps that are not commands do not lead to `exit`. -/
theorem not_atExit_of_move (hexit : ¬ AtExit s) {e : Event} {s' : State} (hmove : Move s e s')
    (hinput : e.input = []) : ¬ AtExit s' := by
  cases hmove with
  | check i after hpc =>
      rintro (h | ⟨j, h⟩)
      · contradiction
      · obtain ⟨-, rfl⟩ := Pc.scan.inj h
        exact hexit (.inr ⟨_, hpc⟩)
  | finish after hpc =>
      cases after with
      | background p => exact not_atExit_of_prompt rfl
      | foreground pid => rintro (h | ⟨j, h⟩) <;> contradiction
      | exit => exact absurd (.inr ⟨_, hpc⟩) hexit
  | wait pid child hpc hzombie => exact not_atExit_of_prompt rfl
  | waitFails pid hpc hnone => exact not_atExit_of_prompt rfl
  | terminate child hforked hrunning => exact hexit
  | _ => contradiction

/-- The children that are running. -/
def State.runningChildren (s : State) : Finset ℕ := s.forked.toFinset.filter (s.status · = .running)

/-- How many steps the iteration has left, with the children that can terminate
meanwhile. -/
def State.stepsLeft (s : State) : ℕ :=
  s.runningChildren.card +
    match s.pc with
    | .scan i _ => i + 2
    | .waiting _ => 1
    | _ => 0

theorem card_runningChildren_reap (s : State) (pid : ℕ) :
    (s.reap pid).runningChildren.card ≤ s.runningChildren.card := by
  apply Finset.card_le_card
  intro q hq
  obtain ⟨hforked, hrunning⟩ := Finset.mem_filter.mp hq
  refine Finset.mem_filter.mpr ⟨hforked, ?_⟩
  by_cases heq : q = pid
  · simp [State.reap, heq] at hrunning
  · simpa [State.reap, heq] using hrunning

/-- A child that terminates is no longer running. -/
theorem card_runningChildren_terminate {child : ℕ} (hforked : child ∈ s.forked)
    (hrunning : s.status child = .running) :
    ({ s with status := Function.update s.status child .zombie } : State).runningChildren.card <
      s.runningChildren.card := by
  apply Finset.card_lt_card
  refine Finset.ssubset_iff_subset_ne.mpr ⟨?_, ?_⟩
  · intro q hq
    obtain ⟨hq, hstatus⟩ := Finset.mem_filter.mp hq
    refine Finset.mem_filter.mpr ⟨hq, ?_⟩
    by_cases heq : q = child
    · exact heq ▸ hrunning
    · simpa [heq] using hstatus
  · intro heq
    have hmem : child ∈ s.runningChildren :=
      Finset.mem_filter.mpr ⟨List.mem_toFinset.mpr hforked, hrunning⟩
    rw [← heq] at hmem
    simpa using (Finset.mem_filter.mp hmem).2

/-- Every step that is not a command brings the iteration closer to its end. -/
theorem stepsLeft_lt (hexit : ¬ AtExit s) {e : Event} {s' : State} (hmove : Move s e s')
    (hinput : e.input = []) : s'.stepsLeft < s.stepsLeft := by
  cases hmove with
  | check i after hpc =>
      have hcard : (s.checkProcess i).runningChildren.card ≤ s.runningChildren.card := by
        rcases checkProcess_cases s i with heq | ⟨p, hp, hzombie, heq⟩
        · rw [heq]
        · rw [heq]
          exact card_runningChildren_reap s p.pid
      rw [State.stepsLeft, State.stepsLeft, hpc]
      exact Nat.add_lt_add_of_le_of_lt hcard (Nat.lt_succ_self _)
  | finish after hpc =>
      rw [State.stepsLeft, State.stepsLeft, hpc]
      cases after with
      | background p => exact Nat.add_lt_add_left (Nat.zero_lt_succ _) _
      | foreground pid => exact Nat.add_lt_add_left (Nat.lt_succ_self _) _
      | exit => exact absurd (.inr ⟨_, hpc⟩) hexit
  | wait pid child hpc hzombie =>
      rw [State.stepsLeft, State.stepsLeft, hpc]
      exact Nat.add_lt_add_of_le_of_lt (card_runningChildren_reap s child) Nat.zero_lt_one
  | waitFails pid hpc hnone =>
      rw [State.stepsLeft, State.stepsLeft, hpc]
      exact Nat.add_lt_add_left Nat.zero_lt_one _
  | terminate child hforked hrunning =>
      exact Nat.add_lt_add_right (card_runningChildren_terminate hforked hrunning) _
  | _ => contradiction

/-- Before the next prompt there is always a step: the child that the shell waits
for may end, or has ended. -/
theorem exists_move (h : WellFormed s) (hexit : ¬ AtExit s) (hprompt : s.pc ≠ .prompt) :
    ∃ e s', Move s e s' ∧ e.input = [] := by
  cases hpc : s.pc with
  | prompt => exact absurd hpc hprompt
  | exited => exact absurd (.inl hpc) hexit
  | scan i after =>
      cases i with
      | zero => exact ⟨_, _, Move.finish after hpc, rfl⟩
      | succ i => exact ⟨_, _, Move.check i after hpc, rfl⟩
  | waiting pid =>
      obtain ⟨hforked, hreaped, -⟩ := h.pending pid (by rw [State.pending, hpc])
      cases hstatus : s.status pid with
      | running => exact ⟨_, _, Move.terminate pid hforked hstatus, rfl⟩
      | zombie => exact ⟨_, _, Move.wait pid pid hpc ⟨hforked, hstatus⟩, rfl⟩
      | reaped => exact absurd hstatus hreaped

/-- Before `exit` the iteration can go on to the next prompt. -/
theorem exists_prompt (h : WellFormed s) (hexit : ¬ AtExit s) :
    ∃ ts s', Transition.run next ts s = some s' ∧ inputs ts = [] ∧ s'.pc = .prompt := by
  induction hn : s.stepsLeft using Nat.strong_induction_on generalizing s with
  | _ n ih =>
      by_cases hprompt : s.pc = .prompt
      · exact ⟨[], s, rfl, rfl, hprompt⟩
      · obtain ⟨e, t, hmove, hinput⟩ := exists_move h hexit hprompt
        obtain ⟨ts, s', hrun, hinputs, hpc⟩ := ih t.stepsLeft
          (hn ▸ stepsLeft_lt hexit hmove hinput) (h.move hmove)
          (not_atExit_of_move hexit hmove hinput) rfl
        refine ⟨e :: ts, s', ?_, ?_, hpc⟩
        · rw [Transition.run, next_eq_some_iff.mpr hmove, Option.bind_some, hrun]
        · rw [inputs, List.flatMap_cons, hinput, ← inputs, hinputs, List.append_nil]

end Shell

end OperatingSystems
