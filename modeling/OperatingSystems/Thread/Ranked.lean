import Mathlib.Algebra.BigOperators.Group.Finset.Basic
import OperatingSystems.Thread.Erasure
import OperatingSystems.Thread.Refinement

/-!
# How long a run can be

A rank that falls with every step of the atomic machine bounds its runs. The
semaphore machine takes other steps as well, which the atomic machine does not see:
those are parts of a mailbox operation, and `stage` falls with them. So five times
the rank and the stages of all threads bound the runs of the semaphore machine. A
program that covers another one takes between two of its steps only as many that are
not seen as its own rank allows.
-/

namespace OperatingSystems

namespace Thread

variable {Tid Box Sem Msg Mem Mem' : Type}

/-- The stages of a mailbox operation that the atomic machine does not see: those of
a send before it takes effect, and those of a receive after it. -/
def Instr.stage {Loc : Type} : Instr Tid Box Sem Msg Mem Loc → Phase Msg → ℕ
  | .recv _ _, .inside => 4
  | .recv _ _, .copied _ => 3
  | _, .entry => 2
  | _, .inside => 1
  | _, .copied _ => 0

theorem Instr.stage_le {Loc : Type} (i : Instr Tid Box Sem Msg Mem Loc) (p : Phase Msg) :
    i.stage p ≤ 4 := by
  cases i <;> cases p <;> simp [Instr.stage]

section Measures

variable {P : Program Tid Box Sem Msg Mem} {Q : Program Tid Box Sem Msg Mem'}
variable (rank : Atomic P → ℕ) (threads : Finset Tid)

/-- The stage of a thread. -/
def State.stage (s : State P) (t : Tid) : ℕ := (P.code t (s.loc t)).stage (s.phase t)

/-- A bound on the steps that `threads` still take. -/
def State.measure (s : State P) : ℕ := 5 * rank (abstract s) + ∑ t ∈ threads, s.stage t

/-- The same for a program that covers another one, and takes at most `limit` steps
in a row that are not seen. -/
def Erasure.measure (E : Erasure Q P) (limit : ℕ) (s : State Q) : ℕ :=
  (limit + 1) * (E.state s).measure rank threads + ∑ t ∈ threads, E.rank t (s.loc t)

end Measures

section Steps

variable [DecidableEq Tid] [DecidableEq Box] [DecidableEq Sem]
variable {P : Program Tid Box Sem Msg Mem}

/-- The atomic machine takes the step as well, or it does not see it and the stage of
the thread falls. -/
theorem stage_or_atomicNext {s s' : State P} {t : Tid} (hs : Exclusive s)
    (h : next t s = some s') :
    (abstract s' = abstract s ∧ s'.stage t < s.stage t) ∨
      atomicNext t (abstract s) = some (abstract s') := by
  obtain ⟨ha, hm⟩ := next_eq_some_iff.mp h
  rcases abstract_step hs h with heq | hnext
  · cases hm with
    | sendWait b m l hi hp hfree =>
        exact .inl ⟨heq, by simp [State.stage, hi, hp, Instr.stage]⟩
    | sendCopy b m l hi hp =>
        exact .inl ⟨heq, by simp [State.stage, hi, hp, Instr.stage]⟩
    | sendPost b m m' l hi hp =>
        -- the mailbox was empty and is full
        obtain ⟨-, hr, -, -⟩ := (hs.box b).of_held
          ((held_of_ne_entry (by simp [hp])).trans (by rw [hi]; rfl) : held s t = some b)
        have hbox := congrArg (fun a => a.box b) heq
        simp [abstract, hr] at hbox
    | recvWait b l hi hp hready =>
        -- the mailbox was full and is empty
        obtain ⟨-, hr, -, -⟩ := (hs.box b).of_ready hready
        have hbox := congrArg (fun a => a.box b) heq
        simp [abstract, hr] at hbox
    | recvCopy b l hi hp =>
        exact .inl ⟨heq, by simp [State.stage, hi, hp, Instr.stage]⟩
    | recvPost b l m hi hp =>
        exact .inl ⟨heq, by simp [State.stage, hi, hp, Instr.stage]⟩
    | core c hc =>
        have hp : s.phase t = .entry := by
          by_contra hp
          exact (hs.inside t hp).2 ((held_of_ne_entry hp).trans (Core.box?_of_next hc))
        have hcode : P.code t ((abstract s).loc t) = P.code t (s.loc t) :=
          congrArg _ (abstractLoc_of_entry hp)
        refine .inr (atomicNext_eq_some_iff.mpr ⟨ha, ?_⟩)
        exact AtomicMove.core _ (by rw [hcode]; exact Core.next_abstract hp hc)
  · exact .inr hnext

/-- In the runs from `s₀` only `threads` take steps, and every step of the atomic
machine lowers `rank`. -/
structure Ranked (s₀ : State P) (threads : Finset Tid) (rank : Atomic P → ℕ) : Prop where
  exclusive : Exclusive s₀
  mem_threads : ∀ s, Transition.Reachable next s₀ s → ∀ t, s.Active t → t ∈ threads
  falls : ∀ t a a', Transition.Reachable atomicNext (abstract s₀) a →
    atomicNext t a = some a' → rank a' < rank a

variable {s₀ s s' : State P} {threads : Finset Tid} {rank : Atomic P → ℕ} {t : Tid}

/-- Every step lowers the measure. -/
theorem Ranked.measure_of_next (h : Ranked s₀ threads rank)
    (hs : Transition.Reachable next s₀ s) (hnext : next t s = some s') :
    s'.measure rank threads < s.measure rank threads := by
  obtain ⟨ha, hm⟩ := next_eq_some_iff.mp hnext
  have hmem := h.mem_threads s hs t ha
  have hothers : ∑ u ∈ threads.erase t, s'.stage u = ∑ u ∈ threads.erase t, s.stage u := by
    refine Finset.sum_congr rfl fun u hu => ?_
    obtain ⟨hphase, hloc⟩ := hm.others (Finset.ne_of_mem_erase hu)
    rw [State.stage, State.stage, hphase, hloc]
  unfold State.measure
  rw [← Finset.add_sum_erase _ _ hmem, ← Finset.add_sum_erase _ _ hmem, hothers]
  rcases stage_or_atomicNext (h.exclusive.of_reachable hs) hnext with ⟨heq, hlt⟩ | hatomic
  · rw [heq]
    omega
  · have hfalls := h.falls t _ _ (abstract_reachable h.exclusive hs) hatomic
    have hstage : s'.stage t ≤ 4 := Instr.stage_le _ _
    omega

variable {Q : Program Tid Box Sem Msg Mem'} {E : Erasure Q P} {limit : ℕ} {q₀ q q' : State Q}

/-- Every step of a program that covers another one lowers the measure. -/
theorem Ranked.erasure_of_next (h : Ranked (E.state q₀) threads rank)
    (hlimit : ∀ t l, E.rank t l ≤ limit) (hq : Transition.Reachable next q₀ q)
    (hnext : next t q = some q') :
    E.measure rank threads limit q' < E.measure rank threads limit q := by
  obtain ⟨ha, hm⟩ := next_eq_some_iff.mp hnext
  have hreach := E.reachable_iff.mpr ⟨q, hq, rfl⟩
  have hmem := h.mem_threads _ hreach t ha
  have hothers : ∑ u ∈ threads.erase t, E.rank u (q'.loc u) =
      ∑ u ∈ threads.erase t, E.rank u (q.loc u) :=
    Finset.sum_congr rfl fun u hu => by rw [(hm.others (Finset.ne_of_mem_erase hu)).2]
  unfold Erasure.measure
  rw [← Finset.add_sum_erase _ _ hmem, ← Finset.add_sum_erase _ _ hmem, hothers]
  rcases E.covers t (q.loc t) with hsilent | hmatches
  · obtain ⟨q'', hq'', heq, hrank⟩ := E.next_of_silent ha hsilent
    obtain rfl := Option.some.inj (hnext.symm.trans hq'')
    rw [heq]
    omega
  · have hstep : next t (E.state q) = some (E.state q') := by
      rw [← E.next_of_matches hmatches, hnext, Option.map_some]
    have hlt := h.measure_of_next hreach hstep
    have hle := hlimit t (q'.loc t)
    have hmul := Nat.mul_le_mul_left (limit + 1) (Nat.succ_le_of_lt hlt)
    rw [Nat.mul_succ] at hmul
    omega

/-- A schedule that goes through is no longer than the measure. -/
theorem Ranked.length_of_run (h : Ranked (E.state q₀) threads rank)
    (hlimit : ∀ t l, E.rank t l ≤ limit) {ts : List Tid}
    (hrun : Transition.run next ts q₀ = some q) :
    ts.length + E.measure rank threads limit q ≤ E.measure rank threads limit q₀ := by
  induction ts using List.reverseRecOn generalizing q with
  | nil =>
      obtain rfl := Option.some.inj hrun
      exact (Nat.zero_add _).le
  | append_singleton ts t ih =>
      obtain ⟨a, ha, hnext⟩ := Transition.run_concat_eq_some.mp hrun
      have hreach := Transition.Reachable.of_run ts Relation.ReflTransGen.refl ha
      have hstep := h.erasure_of_next hlimit hreach hnext
      have hlen := ih ha
      rw [List.length_append, List.length_singleton]
      omega

end Steps

end Thread

end OperatingSystems
