import Mathlib.Algebra.BigOperators.Group.Finset.Basic
import OperatingSystems.Thread.Exclusion

/-!
# Programs that take a fixed number of steps

A thread without branches takes the same steps in every run, however the other
threads run in between. Where a count of the steps left goes with each control
point, three for a mailbox operation and one for any other instruction, every
step of a run takes exactly one off the sum of the counts. So all schedules that
go through have at most that length, and those of that length end with every
thread exited.
-/

namespace OperatingSystems

namespace Thread

variable {Tid Box Sem Msg Mem : Type}

/-- The parts of a mailbox operation that are done. -/
def Phase.done : Phase Msg → ℕ
  | .entry => 0
  | .inside => 1
  | .copied _ => 2

/-- With `n` steps left a thread runs the instruction, and where it goes on to it
has the rest left. -/
def Instr.Counts {Loc : Type} (mem : Mem) (status : Tid → Status) (left : Loc → ℕ) (n : ℕ) :
    Instr Tid Box Sem Msg Mem Loc → Prop
  | .send _ _ l => n = left l + 3
  | .recv _ k => ∀ m, n = left (k m) + 3
  | .wait _ l => n = left l + 1
  | .post _ l => n = left l + 1
  | .access f => n = left (f mem).2 + 1
  | .create u l => n = left l + 1 ∧ status u ≠ .exited
  | .join _ l => n = left l + 1
  | .exit => n = 1
  | .abort => False

variable {P : Program Tid Box Sem Msg Mem}

section Counts

variable (left : ∀ t, P.Loc t → ℕ) (s : State P)

/-- The steps that thread `t` has left. -/
def State.toDo (t : Tid) : ℕ :=
  if s.status t = .exited then 0 else left t (s.loc t) - (s.phase t).done

/-- The steps that all of `threads` have left. -/
def State.remaining (threads : Finset Tid) : ℕ := ∑ t ∈ threads, s.toDo left t

end Counts

section Steps

variable [DecidableEq Tid] [DecidableEq Sem]

variable {left : ∀ t, P.Loc t → ℕ} {s s' : State P} {t u : Tid}

/-- A step off the mailboxes ends no other thread, and no ended thread runs
again. -/
theorem exited_iff_of_core {c : Core P} {i : Instr Tid Box Sem Msg Mem (P.Loc t)} {n : ℕ}
    (h : s.toCore.next t i = some c) (hi : i.Counts s.mem s.status (left t) n) (hu : u ≠ t) :
    c.status u = .exited ↔ s.status u = .exited := by
  cases i with
  | wait q l =>
      simp only [Core.next] at h
      split at h
      · contradiction
      · obtain rfl := Option.some.inj h
        exact Iff.rfl
  | post q l =>
      obtain rfl := Option.some.inj h
      exact Iff.rfl
  | access f =>
      obtain rfl := Option.some.inj h
      exact Iff.rfl
  | create v l =>
      obtain rfl := Option.some.inj h
      by_cases huv : u = v
      · subst huv
        simpa using hi.2
      · simp [huv]
  | join v l =>
      simp only [Core.next] at h
      split at h
      · obtain rfl := Option.some.inj h
        exact Iff.rfl
      · contradiction
  | exit =>
      obtain rfl := Option.some.inj h
      simp [hu]
  | abort => exact hi.elim
  | send b m l => contradiction
  | recv b k => contradiction

/-- A step off the mailboxes is one of the steps that are left. -/
theorem left_core {c : Core P} {i : Instr Tid Box Sem Msg Mem (P.Loc t)} {n : ℕ}
    (h : s.toCore.next t i = some c) (hi : i.Counts s.mem s.status (left t) n)
    (hrun : s.status t = .running) :
    (if c.status t = .exited then 0 else left t (c.loc t)) + 1 = n := by
  cases i with
  | wait q l =>
      simp only [Core.next] at h
      split at h
      · contradiction
      · obtain rfl := Option.some.inj h
        simpa [hrun] using hi.symm
  | post q l =>
      obtain rfl := Option.some.inj h
      simpa [hrun] using hi.symm
  | access f =>
      obtain rfl := Option.some.inj h
      simpa [hrun] using hi.symm
  | create v l =>
      obtain rfl := Option.some.inj h
      have hno : Function.update s.status v .running t ≠ .exited := by
        by_cases htv : t = v
        · simp [htv]
        · simp [htv, hrun]
      simpa [hno] using hi.1.symm
  | join v l =>
      simp only [Core.next] at h
      split at h
      · obtain rfl := Option.some.inj h
        simpa [hrun] using hi.symm
      · contradiction
  | exit =>
      obtain rfl := Option.some.inj h
      simpa using hi.symm
  | abort => exact hi.elim
  | send b m l => contradiction
  | recv b k => contradiction

variable [DecidableEq Box]

/-- In the runs from `s₀` only `threads` take steps, and `left` counts them. -/
structure Timed (s₀ : State P) (threads : Finset Tid) (left : ∀ t, P.Loc t → ℕ) : Prop where
  exclusive : Exclusive s₀
  mem_threads : ∀ s, Transition.Reachable next s₀ s → ∀ t, s.Active t → t ∈ threads
  counts : ∀ s, Transition.Reachable next s₀ s → ∀ t, s.Active t →
    (P.code t (s.loc t)).Counts s.mem s.status (left t) (left t (s.loc t))

/-- The other threads have as many steps left as before. -/
theorem Move.left_of_ne (h : Move s t s')
    (hcounts : (P.code t (s.loc t)).Counts s.mem s.status (left t) (left t (s.loc t)))
    (hu : u ≠ t) : s'.toDo left u = s.toDo left u := by
  obtain ⟨hphase, hloc⟩ := h.others hu
  have hstatus : s'.status u = .exited ↔ s.status u = .exited := by
    cases h with
    | core c hc => exact exited_iff_of_core hc hcounts hu
    | _ => exact Iff.rfl
  unfold State.toDo
  rw [hphase, hloc, if_congr hstatus rfl rfl]

/-- A thread that takes a step has one step less left. -/
theorem Move.left_self (h : Move s t s') (hs : Exclusive s) (hrun : s.status t = .running)
    (hcounts : (P.code t (s.loc t)).Counts s.mem s.status (left t) (left t (s.loc t))) :
    s'.toDo left t + 1 = s.toDo left t := by
  cases h with
  | sendWait b m l hi hp hfree =>
      rw [hi] at hcounts
      have hn : left t (s.loc t) = left t l + 3 := hcounts
      simp [State.toDo, hrun, hp, hn, Phase.done]
  | sendCopy b m l hi hp =>
      rw [hi] at hcounts
      have hn : left t (s.loc t) = left t l + 3 := hcounts
      simp [State.toDo, hrun, hp, hn, Phase.done]
  | sendPost b m m' l hi hp =>
      rw [hi] at hcounts
      have hn : left t (s.loc t) = left t l + 3 := hcounts
      simp [State.toDo, hrun, hp, hn, Phase.done]
  | recvWait b k hi hp hready =>
      rw [hi] at hcounts
      have hn : left t (s.loc t) = left t (k (s.slot b)) + 3 := hcounts _
      simp [State.toDo, hrun, hp, hn, Phase.done]
  | recvCopy b k hi hp =>
      rw [hi] at hcounts
      have hn : left t (s.loc t) = left t (k (s.slot b)) + 3 := hcounts _
      simp [State.toDo, hrun, hp, hn, Phase.done]
  | recvPost b k m hi hp =>
      rw [hi] at hcounts
      have hn : left t (s.loc t) = left t (k m) + 3 := hcounts _
      simp [State.toDo, hrun, hp, hn, Phase.done]
  | core c hc =>
      have hp : s.phase t = .entry := by
        by_contra hp
        exact (hs.inside t hp).2 ((held_of_ne_entry hp).trans (Core.box?_of_next hc))
      simpa [State.toDo, hrun, hp, Phase.done] using left_core hc hcounts hrun

variable {s₀ : State P} {threads : Finset Tid}

/-- Every step takes one off the steps that are left. -/
theorem Timed.remaining_of_next (h : Timed s₀ threads left)
    (hs : Transition.Reachable next s₀ s) (hnext : next t s = some s') :
    s'.remaining left threads + 1 = s.remaining left threads := by
  obtain ⟨ha, hm⟩ := next_eq_some_iff.mp hnext
  have hcounts := h.counts s hs t ha
  have hmem := h.mem_threads s hs t ha
  have hothers : ∑ u ∈ threads.erase t, s'.toDo left u = ∑ u ∈ threads.erase t, s.toDo left u :=
    Finset.sum_congr rfl fun u hu => hm.left_of_ne hcounts (Finset.ne_of_mem_erase hu)
  have hself := hm.left_self (h.exclusive.of_reachable hs) ha.2 hcounts
  unfold State.remaining
  rw [← Finset.add_sum_erase _ _ hmem, ← Finset.add_sum_erase _ _ hmem, hothers]
  omega

/-- A schedule that goes through is as long as the steps it takes off. -/
theorem Timed.length_of_run (h : Timed s₀ threads left) {ts : List Tid}
    (hrun : Transition.run next ts s₀ = some s) :
    ts.length + s.remaining left threads = s₀.remaining left threads := by
  induction ts using List.reverseRecOn generalizing s with
  | nil =>
      obtain rfl := Option.some.inj hrun
      exact Nat.zero_add _
  | append_singleton ts t ih =>
      obtain ⟨a, ha, hnext⟩ := Transition.run_concat_eq_some.mp hrun
      have hreach := Transition.Reachable.of_run ts Relation.ReflTransGen.refl ha
      have hstep := h.remaining_of_next hreach hnext
      have hlen := ih ha
      rw [List.length_append, List.length_singleton]
      omega

/-- Without steps left no thread takes one. -/
theorem Timed.stuck_of_remaining (h : Timed s₀ threads left)
    (hs : Transition.Reachable next s₀ s) (hzero : s.remaining left threads = 0) :
    Transition.Stuck next s := by
  by_contra hnot
  obtain ⟨t, s', hnext⟩ := (Transition.not_stuck_iff _ _).mp hnot
  have hstep := h.remaining_of_next hs hnext
  omega

end Steps

end Thread

end OperatingSystems
