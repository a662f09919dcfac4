import Mathlib.Data.List.Induction
import Mathlib.Data.Nat.Basic
import Mathlib.Logic.Basic
import Mathlib.Logic.Relation

/-!
# Runs of a labelled system

`next t s` is the state that label `t` leads to from `s`, and `none` where `t`
is not enabled. A run is any chain of such steps, in any order of labels, so
`Reachable next init s` covers every interleaving. Two rules are kept here: an
invariant that every step preserves holds along every run, and a map into a
second system that matches every step, possibly by no step at all, carries runs
to runs. A measure that every step decreases leaves no infinite run, so a state
without enabled labels is reached, and every schedule can be continued to one.
Runs can also be limited to the steps that a condition on the label and on the
state before allows.
-/

namespace OperatingSystems

namespace Transition

variable {ι κ σ τ : Type*}

/-- One step, of any label. -/
def Step (next : ι → σ → Option σ) (s s' : σ) : Prop :=
  ∃ t, next t s = some s'

/-- The states that some run from `init` passes through. -/
def Reachable (next : ι → σ → Option σ) (init : σ) : σ → Prop :=
  Relation.ReflTransGen (Step next) init

/-- The state after the labels of a schedule, in order. -/
def run (next : ι → σ → Option σ) : List ι → σ → Option σ
  | [], s => some s
  | t :: ts, s => (next t s).bind (run next ts)

/-- No label is enabled. -/
def Stuck (next : ι → σ → Option σ) (s : σ) : Prop :=
  ∀ t, next t s = none

theorem not_stuck_iff (next : ι → σ → Option σ) (s : σ) :
    ¬ Stuck next s ↔ ∃ t s', next t s = some s' := by
  simp only [Stuck, not_forall, Option.ne_none_iff_exists']

theorem run_append (next : ι → σ → Option σ) (ts us : List ι) (s : σ) :
    run next (ts ++ us) s = (run next ts s).bind (run next us) := by
  induction ts generalizing s with
  | nil => rfl
  | cons t ts ih =>
      rw [List.cons_append, run, run, Option.bind_assoc]
      exact congrArg _ (funext ih)

/-- A schedule that goes through ends with a step of its last label. -/
theorem run_concat_eq_some {next : ι → σ → Option σ} {ts : List ι} {t : ι} {s s' : σ} :
    run next (ts ++ [t]) s = some s' ↔ ∃ a, run next ts s = some a ∧ next t a = some s' := by
  rw [run_append, Option.bind_eq_some_iff]
  simp only [run, Option.bind_fun_some]

/-- A schedule that goes through leads to a reachable state. -/
theorem Reachable.of_run {next : ι → σ → Option σ} {init s s' : σ} (ts : List ι)
    (hs : Reachable next init s) (h : run next ts s = some s') : Reachable next init s' := by
  induction ts generalizing s with
  | nil => exact Option.some.inj h ▸ hs
  | cons t ts ih =>
      obtain ⟨a, ha, hrun⟩ := Option.bind_eq_some_iff.mp h
      exact ih (hs.tail ⟨t, ha⟩) hrun

/-- A schedule that goes through, known by what the state it leads to shows. -/
theorem exists_of_run_map {next : ι → σ → Option σ} {init : σ} {ts : List ι} {f : σ → τ} {b : τ}
    (h : (run next ts init).map f = some b) :
    ∃ s, run next ts init = some s ∧ Reachable next init s ∧ f s = b := by
  obtain ⟨s, hs, hb⟩ := Option.map_eq_some_iff.mp h
  exact ⟨s, hs, .of_run ts Relation.ReflTransGen.refl hs, hb⟩

/-- The run rule: what holds initially and survives every step of a reachable
state holds of every reachable state. -/
theorem Reachable.invariant {next : ι → σ → Option σ} {init s : σ} {I : σ → Prop}
    (hs : Reachable next init s) (hinit : I init)
    (hstep : ∀ t a a', Reachable next init a → I a → next t a = some a' → I a') :
    I s := by
  induction hs with
  | refl => exact hinit
  | tail hab hbc ih =>
      obtain ⟨t, ht⟩ := hbc
      exact hstep t _ _ hab ih ht

/-- The run rule with the schedule: what holds of the empty schedule and goes on to a
schedule that is one label longer. -/
theorem run_invariant {next : ι → σ → Option σ} {init s : σ} {I : List ι → σ → Prop}
    (ts : List ι) (hrun : run next ts init = some s) (hinit : I [] init)
    (hstep : ∀ us t a a', run next us init = some a → I us a → next t a = some a' →
      I (us ++ [t]) a') : I ts s := by
  induction ts using List.reverseRecOn generalizing s with
  | nil => exact Option.some.inj hrun ▸ hinit
  | append_singleton us t ih =>
      obtain ⟨a, ha, hnext⟩ := run_concat_eq_some.mp hrun
      exact hstep us t a s ha (ih ha) hnext

/-- A map `f` that sends every step out of a reachable state to a step or to no
move at all sends reachable states to reachable states. -/
theorem Reachable.simulate {next : ι → σ → Option σ} {next' : κ → τ → Option τ}
    {init s : σ} (f : σ → τ) (hs : Reachable next init s)
    (hstep : ∀ t a a', Reachable next init a → next t a = some a' →
      f a' = f a ∨ ∃ u, next' u (f a) = some (f a')) :
    Reachable next' (f init) (f s) := by
  induction hs with
  | refl => exact Relation.ReflTransGen.refl
  | tail hab hbc ih =>
      obtain ⟨t, ht⟩ := hbc
      rcases hstep t _ _ hab ht with heq | hmove
      · rw [heq]
        exact ih
      · exact ih.tail hmove

/-- Where every step of a reachable state decreases a measure, every reachable
state runs into a stuck one. -/
theorem Reachable.exists_stuck {next : ι → σ → Option σ} {init s : σ}
    (μ : σ → ℕ) (hs : Reachable next init s)
    (hμ : ∀ t a a', Reachable next init a → next t a = some a' → μ a' < μ a) :
    ∃ s', Reachable next init s' ∧ Stuck next s' := by
  induction hn : μ s using Nat.strong_induction_on generalizing s with
  | h n ih =>
      by_cases hstuck : Stuck next s
      · exact ⟨s, hs, hstuck⟩
      · obtain ⟨t, s', ht⟩ := (not_stuck_iff next s).mp hstuck
        have hlt : μ s' < n := hn ▸ hμ t s s' hs ht
        exact ih (μ s') hlt (hs.tail ⟨t, ht⟩) rfl

/-- Where every step of a reachable state decreases a measure, every schedule can be
continued until no step is left. -/
theorem exists_run_stuck {next : ι → σ → Option σ} {init s : σ} (μ : σ → ℕ) (ts : List ι)
    (hrun : run next ts init = some s)
    (hμ : ∀ t a a', Reachable next init a → next t a = some a' → μ a' < μ a) :
    ∃ us s', run next (ts ++ us) init = some s' ∧ Stuck next s' := by
  induction hn : μ s using Nat.strong_induction_on generalizing ts s with
  | h n ih =>
      by_cases hstuck : Stuck next s
      · exact ⟨[], s, (List.append_nil ts).symm ▸ hrun, hstuck⟩
      · obtain ⟨t, s', ht⟩ := (not_stuck_iff next s).mp hstuck
        have hlt : μ s' < n := hn ▸ hμ t s s' (.of_run ts Relation.ReflTransGen.refl hrun) ht
        obtain ⟨us, s'', hus, hstuck''⟩ := ih (μ s') hlt (ts ++ [t])
          (run_concat_eq_some.mpr ⟨s, hrun, ht⟩) rfl
        exact ⟨t :: us, s'', by rwa [List.append_assoc] at hus, hstuck''⟩

/-- The states that some run from `init` passes through whose steps are all
allowed. -/
def ReachableBy (allowed : ι → σ → Prop) (next : ι → σ → Option σ) (init : σ) : σ → Prop :=
  Relation.ReflTransGen (fun s s' => ∃ t, allowed t s ∧ next t s = some s') init

namespace ReachableBy

variable {allowed : ι → σ → Prop} {next : ι → σ → Option σ} {init s : σ}

theorem reachable (hs : ReachableBy allowed next init s) : Reachable next init s :=
  Relation.ReflTransGen.mono (fun _ _ ⟨t, _, ht⟩ => ⟨t, ht⟩) _ _ hs

theorem snoc {t : ι} {s' : σ} (hs : ReachableBy allowed next init s) (hallowed : allowed t s)
    (ht : next t s = some s') : ReachableBy allowed next init s' :=
  hs.tail ⟨t, hallowed, ht⟩

/-- A schedule of labels that are allowed in every state. -/
theorem of_run {s' : σ} (ts : List ι) (hs : ReachableBy allowed next init s)
    (hallowed : ∀ t ∈ ts, ∀ a, allowed t a) (h : run next ts s = some s') :
    ReachableBy allowed next init s' := by
  induction ts generalizing s with
  | nil => exact Option.some.inj h ▸ hs
  | cons t ts ih =>
      obtain ⟨a, ha, hrun⟩ := Option.bind_eq_some_iff.mp h
      exact ih (hs.snoc (hallowed t List.mem_cons_self s) ha)
        (fun u hu => hallowed u (List.mem_cons_of_mem t hu)) hrun

/-- The run rule for allowed steps. -/
theorem invariant {I : σ → Prop} (hs : ReachableBy allowed next init s) (hinit : I init)
    (hstep : ∀ t a a', Reachable next init a → allowed t a → I a → next t a = some a' → I a') :
    I s := by
  induction hs with
  | refl => exact hinit
  | tail hab hbc ih =>
      obtain ⟨t, hallowed, ht⟩ := hbc
      exact hstep t _ _ (reachable hab) hallowed ih ht

end ReachableBy

end Transition

end OperatingSystems
