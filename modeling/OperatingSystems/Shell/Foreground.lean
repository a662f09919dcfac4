import Mathlib.Data.List.TakeWhile
import OperatingSystems.Shell.Reaping

/-!
# Waiting for a foreground command

`wait(0)` returns for any child. If no background job is started before a
foreground command, its child is the only one that has not been reaped, and the
wait is for it. After a background job there is always a run in which the job
ends during the wait, and the prompt comes back while the child of the
foreground command is running.
-/

namespace OperatingSystems

namespace Shell

open OperatingSystems

/-- The command that an event enters. -/
def Event.input : Event → List Command
  | .enter command _ => [command]
  | _ => []

/-- The commands entered in a run. -/
def inputs (ts : List Event) : List Command := ts.flatMap Event.input

/-- In every run on these commands, when the shell returns to the prompt from
the wait for a foreground command, the child of that command has terminated. -/
def ForegroundWaited (commands : List Command) : Prop :=
  ∀ ts e s s' pid, Transition.run next ts start = some s → inputs ts <+: commands →
    s.pc = .waiting pid → next e s = some s' → s'.pc = .prompt → s'.status pid ≠ .running

/-- No foreground command follows a background command, up to the first `exit`. -/
def ForegroundFirst (commands : List Command) : Prop :=
  ∀ name, ¬ [.background name, .foreground].Sublist (commands.takeWhile (· ≠ .exit))

theorem inputs_concat (ts : List Event) (e : Event) :
    inputs (ts ++ [e]) = inputs ts ++ e.input := by
  rw [inputs, List.flatMap_append, List.flatMap_singleton]
  rfl

/-- The shell is at the foreground command of child `pid`. -/
def AtForeground (s : State) (pid : ℕ) : Prop :=
  (∃ i, s.pc = .scan i (.foreground pid)) ∨ s.pc = .waiting pid

theorem not_atForeground_of_prompt {s : State} (hpc : s.pc = .prompt) (pid : ℕ) :
    ¬ AtForeground s pid := by
  rintro (⟨i, h⟩ | h) <;> rw [hpc] at h <;> contradiction

/-- What holds after the commands `cs` have been entered: without a background
command among them, the child of the foreground command is the only one left. -/
structure Alone (cs : List Command) (s : State) : Prop where
  exit : .exit ∈ cs → s.pc = .exited ∨ ∃ i, s.pc = .scan i .exit
  background : ∀ i p, s.pc = .scan i (.background p) → ∃ name, .background name ∈ cs
  processes : (∀ name, .background name ∉ cs) → s.processes = []
  only : (∀ name, .background name ∉ cs) →
    ∀ q ∈ s.forked, s.status q ≠ .reaped → AtForeground s q
  first : ∀ pid, AtForeground s pid → ∀ name, .background name ∉ cs

theorem alone_start : Alone [] start where
  exit := fun h => absurd h List.not_mem_nil
  background := fun i p h => by contradiction
  processes := fun _ => rfl
  only := fun _ q hq => absurd hq List.not_mem_nil
  first := fun pid _ name => List.not_mem_nil

namespace ForegroundFirst

variable {commands : List Command}

theorem of_prefix (h : ForegroundFirst commands) {cs : List Command} (hcs : cs <+: commands) :
    ForegroundFirst cs := by
  obtain ⟨rest, rfl⟩ := hcs
  intro name hsub
  refine h name (hsub.trans ?_)
  rw [List.takeWhile_append]
  split
  · exact (List.takeWhile_sublist _).trans (List.sublist_append_left _ _)
  · exact List.Sublist.refl _

/-- A foreground command that is entered comes before all background commands. -/
theorem background_notMem {cs : List Command} (h : ForegroundFirst (cs ++ [.foreground]))
    (hexit : .exit ∉ cs) (name : String) : .background name ∉ cs := by
  intro hmem
  have hself : (cs ++ [Command.foreground]).takeWhile (· ≠ .exit) = cs ++ [.foreground] := by
    apply List.takeWhile_eq_self_iff.mpr
    intro c hc
    rcases List.mem_append.mp hc with hc | hc
    · have hne : c ≠ .exit := fun heq => hexit (heq ▸ hc)
      simpa using hne
    · simp [List.mem_singleton.mp hc]
  apply h name
  rw [hself]
  exact (List.singleton_sublist.mpr hmem).append (List.Sublist.refl [Command.foreground])

end ForegroundFirst

namespace Alone

variable {cs : List Command} {s : State}

/-- At the prompt `exit` has not been entered. -/
theorem exit_notMem (h : Alone cs s) (hpc : s.pc = .prompt) : .exit ∉ cs := by
  intro hmem
  rcases h.exit hmem with hexited | ⟨i, hscan⟩
  · rw [hpc] at hexited
    contradiction
  · rw [hpc] at hscan
    contradiction

theorem launch_background (h : Alone cs s) (hpc : s.pc = .prompt) (pid : ℕ) (name : String) :
    Alone (cs ++ [.background name]) (s.launch pid (.background ⟨pid, name⟩)) := by
  have hmem : .background name ∈ cs ++ [Command.background name] :=
    List.mem_append_right _ List.mem_cons_self
  refine ⟨fun hexit => ?_, fun _ _ _ => ⟨name, hmem⟩, fun h => absurd hmem (h name),
    fun h => absurd hmem (h name), ?_⟩
  · rcases List.mem_append.mp hexit with hexit | hexit
    · exact absurd hexit (h.exit_notMem hpc)
    · exact absurd (List.mem_singleton.mp hexit) (by simp)
  · rintro q (⟨i, heq⟩ | heq)
    · exact absurd (Pc.scan.inj heq).2 (by simp)
    · contradiction

theorem launch_foreground (h : Alone cs s) (hpc : s.pc = .prompt) (pid : ℕ)
    (hfirst : ForegroundFirst (cs ++ [.foreground])) :
    Alone (cs ++ [.foreground]) (s.launch pid (.foreground pid)) := by
  have hnone : ∀ name, .background name ∉ cs ++ [Command.foreground] := by
    intro name hmem
    rcases List.mem_append.mp hmem with hmem | hmem
    · exact hfirst.background_notMem (h.exit_notMem hpc) name hmem
    · exact absurd (List.mem_singleton.mp hmem) (by simp)
  have hold : ∀ name, .background name ∉ cs :=
    fun name hmem => hnone name (List.mem_append_left _ hmem)
  refine ⟨fun hexit => ?_, fun i p heq => ?_, fun _ => h.processes hold, fun _ q hq hstatus => ?_,
    fun _ _ => hnone⟩
  · rcases List.mem_append.mp hexit with hexit | hexit
    · exact absurd hexit (h.exit_notMem hpc)
    · exact absurd (List.mem_singleton.mp hexit) (by simp)
  · exact absurd (Pc.scan.inj heq).2 (by simp)
  · by_cases hne : q = pid
    · exact .inl ⟨s.processes.length, by rw [hne]; rfl⟩
    · have hq : q ∈ s.forked := (List.mem_append.mp hq).resolve_right fun hq =>
        hne (List.mem_singleton.mp hq)
      have hstatus : s.status q ≠ .reaped := by simpa [State.launch, hne] using hstatus
      exact absurd (h.only hold q hq hstatus) (not_atForeground_of_prompt hpc q)

/-- A command that forks no child. -/
theorem enter (h : Alone cs s) (hpc : s.pc = .prompt) {c : Command} {s' : State}
    (hprocesses : s'.processes = s.processes)
    (hforked : s'.forked = s.forked) (hstatus : s'.status = s.status)
    (hpc' : (c ≠ .exit ∧ s'.pc = .prompt) ∨ s'.pc = .scan 0 .exit) : Alone (cs ++ [c]) s' := by
  have hold : (∀ name, .background name ∉ cs ++ [c]) → ∀ name, .background name ∉ cs :=
    fun h name hmem => h name (List.mem_append_left _ hmem)
  refine ⟨fun hexit => ?_, fun i p heq => ?_, fun hnone => ?_, fun hnone q hq hs => ?_,
    fun q hq => ?_⟩
  · rcases hpc' with ⟨hne, -⟩ | hpc'
    · rcases List.mem_append.mp hexit with hexit | hexit
      · exact absurd hexit (h.exit_notMem hpc)
      · exact absurd (List.mem_singleton.mp hexit).symm hne
    · exact .inr ⟨0, hpc'⟩
  · rcases hpc' with ⟨-, hpc'⟩ | hpc' <;> rw [hpc'] at heq <;> simp at heq
  · rw [hprocesses]
    exact h.processes (hold hnone)
  · rw [hforked] at hq
    rw [hstatus] at hs
    exact absurd (h.only (hold hnone) q hq hs) (not_atForeground_of_prompt hpc q)
  · rcases hq with ⟨i, heq⟩ | heq <;> rcases hpc' with ⟨-, hpc'⟩ | hpc' <;>
      rw [hpc'] at heq <;> simp at heq

/-- Checking an entry keeps what comes after it. -/
theorem check (h : Alone cs s) {i : ℕ} {after : After} (hpc : s.pc = .scan (i + 1) after) :
    Alone cs { s.checkProcess i with pc := .scan i after } := by
  have hat : ∀ s' : State, s'.pc = .scan i after → ∀ q, AtForeground s' q ↔ AtForeground s q := by
    intro s' hs' q
    unfold AtForeground
    rw [hs', hpc]
    simp
  have hsame : (∀ name, .background name ∉ cs) → s.checkProcess i = s := fun hnone =>
    checkProcess_of_not_zombie fun p hp => by
      rw [h.processes hnone, List.getElem?_nil] at hp
      contradiction
  refine ⟨fun hexit => ?_, fun j p heq => ?_, fun hnone => ?_, fun hnone q hq hs => ?_,
    fun q hq => h.first q ((hat _ rfl q).mp hq)⟩
  · rcases h.exit hexit with hexited | ⟨j, hscan⟩
    · rw [hpc] at hexited
      contradiction
    · rw [hpc] at hscan
      obtain ⟨-, rfl⟩ := Pc.scan.inj hscan
      exact .inr ⟨i, rfl⟩
  · obtain ⟨-, rfl⟩ := Pc.scan.inj heq
    exact h.background _ p hpc
  · rw [hsame hnone]
    exact h.processes hnone
  · rw [hsame hnone] at hq hs
    exact (hat _ rfl q).mpr (h.only hnone q hq hs)

theorem finish (h : Alone cs s) {after : After} (hpc : s.pc = .scan 0 after) :
    Alone cs (s.finish after) := by
  cases after with
  | background p =>
      obtain ⟨name, hname⟩ := h.background 0 p hpc
      refine ⟨fun hexit => ?_, fun _ _ heq => by contradiction,
        fun hnone => absurd hname (hnone name), fun hnone => absurd hname (hnone name),
        fun q hq => ?_⟩
      · rcases h.exit hexit with hexited | ⟨j, hscan⟩
        · rw [hpc] at hexited
          contradiction
        · rw [hpc] at hscan
          simp at hscan
      · exact absurd hq (not_atForeground_of_prompt rfl q)
  | foreground pid =>
      have hfirst := h.first pid (.inl ⟨0, hpc⟩)
      refine ⟨fun hexit => ?_, fun _ _ heq => by contradiction, h.processes,
        fun hnone q hq hs => ?_, fun _ _ => hfirst⟩
      · rcases h.exit hexit with hexited | ⟨j, hscan⟩
        · rw [hpc] at hexited
          contradiction
        · rw [hpc] at hscan
          simp at hscan
      · rcases h.only hnone q hq hs with ⟨i, heq⟩ | heq
        · rw [hpc] at heq
          obtain ⟨-, heq⟩ := Pc.scan.inj heq
          exact .inr (congrArg Pc.waiting (After.foreground.inj heq))
        · rw [hpc] at heq
          contradiction
  | exit =>
      have hnot : ∀ q, ¬ AtForeground s q := by
        rintro q (⟨i, heq⟩ | heq) <;> rw [hpc] at heq <;> simp at heq
      unfold State.finish
      dsimp only
      split
      · refine ⟨fun _ => .inl rfl, fun _ _ heq => by contradiction, h.processes,
          fun hnone q hq hs => absurd (h.only hnone q hq hs) (hnot q), ?_⟩
        rintro q (⟨i, heq⟩ | heq) <;> contradiction
      · refine ⟨fun _ => .inr ⟨_, rfl⟩, fun _ _ heq => by simp at heq, h.processes,
          fun hnone q hq hs => absurd (h.only hnone q hq hs) (hnot q), ?_⟩
        rintro q (⟨i, heq⟩ | heq) <;> simp at heq

/-- Waiting for `pid`, no other child is left. -/
theorem eq_of_waiting (h : Alone cs s) {pid q : ℕ} (hpc : s.pc = .waiting pid)
    (hq : q ∈ s.forked) (hstatus : s.status q ≠ .reaped) : q = pid := by
  rcases h.only (h.first pid (.inr hpc)) q hq hstatus with ⟨i, heq⟩ | heq
  · rw [hpc] at heq
    contradiction
  · rw [hpc] at heq
    exact (Pc.waiting.inj heq).symm

/-- The wait is over when no child is left. -/
theorem prompt (h : Alone cs s) {pid : ℕ} (hpc : s.pc = .waiting pid) {s' : State}
    (hpc' : s'.pc = .prompt) (hprocesses : s'.processes = s.processes)
    (hnone : ∀ q ∈ s'.forked, s'.status q = .reaped) : Alone cs s' := by
  refine ⟨fun hexit => ?_, fun i p heq => ?_, fun hbg => ?_, fun _ q hq hs => ?_, fun q hq => ?_⟩
  · rcases h.exit hexit with hexited | ⟨j, hscan⟩
    · rw [hpc] at hexited
      contradiction
    · rw [hpc] at hscan
      contradiction
  · rw [hpc'] at heq
    contradiction
  · rw [hprocesses]
    exact h.processes hbg
  · exact absurd (hnone q hq) hs
  · exact absurd hq (not_atForeground_of_prompt hpc' q)

theorem terminate (h : Alone cs s) {child : ℕ} (hrunning : s.status child = .running) :
    Alone cs { s with status := Function.update s.status child .zombie } := by
  refine ⟨h.exit, h.background, h.processes, fun hnone q hq hs => h.only hnone q hq ?_, h.first⟩
  by_cases heq : q = child
  · rw [heq, hrunning]
    simp
  · simpa [heq] using hs

theorem move (h : Alone cs s) {e : Event} {s' : State} (hmove : Move s e s')
    (hfirst : ForegroundFirst (cs ++ e.input)) : Alone (cs ++ e.input) s' := by
  cases hmove with
  | background pid name hpc hfresh => exact h.launch_background hpc pid name
  | foreground pid hpc hfresh => exact h.launch_foreground hpc pid hfirst
  | jobs pid hpc => exact h.enter hpc rfl rfl rfl (.inl ⟨by simp, hpc⟩)
  | cd pid hpc => exact h.enter hpc rfl rfl rfl (.inl ⟨by simp, hpc⟩)
  | exit pid hpc => exact h.enter hpc rfl rfl rfl (.inr rfl)
  | check i after hpc => exact (List.append_nil cs).symm ▸ h.check hpc
  | finish after hpc => exact (List.append_nil cs).symm ▸ h.finish hpc
  | wait pid child hpc hzombie =>
      have hinput : (Event.wait child).input = [] := rfl
      rw [hinput, List.append_nil]
      refine h.prompt hpc rfl rfl fun q hq => ?_
      have hchild : child = pid := by
        apply h.eq_of_waiting hpc hzombie.1
        rw [hzombie.2]
        simp
      by_cases heq : q = child
      · simp [State.reap, heq]
      · by_contra hs
        have hs : s.status q ≠ .reaped := by simpa [State.reap, heq] using hs
        exact heq ((h.eq_of_waiting hpc hq hs).trans hchild.symm)
  | waitFails pid hpc hnone =>
      have hinput : Event.waitFails.input = [] := rfl
      rw [hinput, List.append_nil]
      exact h.prompt hpc rfl rfl hnone
  | terminate child hforked hrunning =>
      exact (List.append_nil cs).symm ▸ h.terminate hrunning

end Alone

theorem alone_of_run {ts : List Event} {s : State} {commands : List Command}
    (hfirst : ForegroundFirst commands) (hrun : Transition.run next ts start = some s)
    (hinputs : inputs ts <+: commands) : Alone (inputs ts) s := by
  induction ts using List.reverseRecOn generalizing s with
  | nil =>
      obtain rfl := Option.some.inj hrun
      exact alone_start
  | append_singleton ts e ih =>
      obtain ⟨a, ha, hnext⟩ := Transition.run_concat_eq_some.mp hrun
      rw [inputs_concat] at hinputs ⊢
      exact (ih ha ((List.prefix_append _ _).trans hinputs)).move (next_eq_some_iff.mp hnext)
        (hfirst.of_prefix hinputs)

/-- Without background commands before it, a foreground command is waited for. -/
theorem foregroundWaited_of_first {commands : List Command} (hfirst : ForegroundFirst commands) :
    ForegroundWaited commands := by
  intro ts e s s' pid hrun hinputs hpc hnext hprompt
  have halone := alone_of_run hfirst hrun hinputs
  cases next_eq_some_iff.mp hnext with
  | wait pid' child hpc' hzombie =>
      have hchild : child = pid := by
        apply halone.eq_of_waiting hpc hzombie.1
        rw [hzombie.2]
        simp
      simp [State.reap, hchild]
  | waitFails pid' hpc' hnone =>
      have hpending := (WellFormed.of_run hrun).pending pid (by rw [State.pending, hpc])
      rw [hnone pid hpending.1]
      simp
  | terminate child hforked hrunning =>
      have hwaiting : s.pc = .prompt := hprompt
      rw [hpc] at hwaiting
      contradiction
  | _ => simp_all

end Shell

end OperatingSystems
