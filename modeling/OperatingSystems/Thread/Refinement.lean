import Mathlib.Tactic.Convert
import OperatingSystems.Thread.Atomic

/-!
# The semaphore machine refines the atomic machine

`abstract_step` matches each step of the semaphore machine with one atomic step
or with none. In the other direction a state with no thread inside a mailbox is
`Quiescent`, and from such a state the semaphore machine carries out any atomic
step and is quiescent again. Both machines therefore reach the same atomic
states, and `stuck_abstract` and `stuck_of_abstract` carry a deadlock from one
to the other.
-/

namespace OperatingSystems

namespace Thread

variable {Tid Box Sem Msg Mem : Type} {P : Program Tid Box Sem Msg Mem}

/-- A thread reads the same in two states that agree on its phase, on its
control point and on the slot of the mailbox it is inside of. -/
theorem abstractLoc_congr {s s' : State P} {t : Tid} (hp : s'.phase t = s.phase t)
    (hl : s'.loc t = s.loc t) (hslot : ∀ b, held s t = some b → s'.slot b = s.slot b) :
    abstractLoc s' t = abstractLoc s t := by
  unfold abstractLoc
  rw [hl, hp]
  cases hi : P.code t (s.loc t) with
  | recv b l =>
      cases hq : s.phase t with
      | inside =>
          have hheld : held s t = some b := by simp [held, hq, hi, Instr.box?]
          simp only [hslot b hheld]
      | _ => rfl
  | _ => cases s.phase t <;> rfl

/-- No thread is inside a mailbox. -/
def Quiescent (s : State P) : Prop :=
  ∀ t, s.phase t = .entry

/-- The atomic reading of a quiescent state keeps every control point. -/
theorem Quiescent.abstract_toCore {s : State P} (h : Quiescent s) :
    (abstract s).toCore = s.toCore :=
  Core.ext (funext fun t => abstractLoc_of_entry (h t)) rfl rfl rfl rfl

section Machine

variable [DecidableEq Tid] [DecidableEq Sem]

/-- Whether a step off the mailboxes is possible does not depend on where the
threads are. -/
theorem Core.next_eq_none_congr (c d : Core P) {t : Tid}
    {i : Instr Tid Box Sem Msg Mem (P.Loc t)} (hsem : c.sem = d.sem)
    (hstatus : c.status = d.status) (h : c.next t i = none) : d.next t i = none := by
  cases i <;> simp_all [Core.next]

/-- A step off the mailboxes is the same step when other threads are read
further on. -/
theorem Core.next_abstract {s : State P} {t : Tid} {c : Core P}
    (hp : s.phase t = .entry) (h : s.toCore.next t (P.code t (s.loc t)) = some c) :
    (abstract s).toCore.next t (P.code t (s.loc t)) =
      some (abstract { s with toCore := c }).toCore := by
  have hrest : ∀ l, Function.update (abstractLoc s) t l =
      abstractLoc { s with toCore := s.toCore.goto t l } := by
    intro l
    funext u
    by_cases hu : u = t
    · subst hu
      rw [Function.update_self, abstractLoc_of_entry (by exact hp)]
      simp
    · rw [Function.update_of_ne hu]
      symm
      apply abstractLoc_congr
      · rfl
      · exact Core.goto_loc_of_ne _ l hu
      · exact fun _ _ => rfl
  cases hi : P.code t (s.loc t) with
  | wait q l =>
      simp only [hi, Core.next] at h ⊢
      split at h
      · contradiction
      · rename_i hq
        obtain rfl := Option.some.inj h
        rw [if_neg (by exact hq)]
        simp only [Core.goto, abstract, hrest]
        rfl
  | post q l =>
      simp only [hi, Core.next] at h ⊢
      obtain rfl := Option.some.inj h
      simp only [Core.goto, abstract, hrest]
      rfl
  | access f =>
      simp only [hi, Core.next] at h ⊢
      obtain rfl := Option.some.inj h
      simp only [Core.goto, abstract, hrest]
      rfl
  | create u l =>
      simp only [hi, Core.next] at h ⊢
      obtain rfl := Option.some.inj h
      simp only [Core.goto, abstract, hrest]
      rfl
  | join u l =>
      simp only [hi, Core.next] at h ⊢
      split at h
      · rename_i hu
        obtain rfl := Option.some.inj h
        rw [if_pos (by exact hu)]
        simp only [Core.goto, abstract, hrest]
      · contradiction
  | exit =>
      simp only [hi, Core.next] at h ⊢
      obtain rfl := Option.some.inj h
      rfl
  | abort =>
      simp only [hi, Core.next] at h ⊢
      obtain rfl := Option.some.inj h
      rfl
  | send b m l => simp [hi, Core.next] at h
  | recv b l => simp [hi, Core.next] at h

variable [DecidableEq Box]

/-- Threads other than the one that moves are read at the same control point,
if the slot they may be copying from is not overwritten. -/
theorem Move.abstractLoc_of_ne {s s' : State P} {t u : Tid} (h : Move s t s')
    (hu : u ≠ t) (hslot : ∀ b, held s u = some b → s'.slot b = s.slot b) :
    abstractLoc s' u = abstractLoc s u :=
  abstractLoc_congr (h.others hu).1 (h.others hu).2 hslot

/-- The atomic reading after thread `t` alone has gone on, to `l`. -/
theorem Move.abstractLoc_eq {s s' : State P} {t : Tid} (h : Move s t s')
    (hslot : ∀ u, u ≠ t → ∀ b, held s u = some b → s'.slot b = s.slot b) (l : P.Loc t)
    (ht : abstractLoc s' t = l) : abstractLoc s' = Function.update (abstractLoc s) t l := by
  funext u
  by_cases hu : u = t
  · subst hu
    rw [Function.update_self, ht]
  · rw [Function.update_of_ne hu, h.abstractLoc_of_ne hu (hslot u hu)]

/-- The atomic reading after a step that the atomic machine does not see. -/
theorem Move.abstractLoc_stay {s s' : State P} {t : Tid} (h : Move s t s')
    (hslot : ∀ u, u ≠ t → ∀ b, held s u = some b → s'.slot b = s.slot b)
    (ht : abstractLoc s' t = abstractLoc s t) : abstractLoc s' = abstractLoc s :=
  (h.abstractLoc_eq hslot _ ht).trans (Function.update_eq_self _ _)

/-- The atomic machine does not see the later parts of a receive. -/
theorem Move.abstract_eq_of_recv {s s' : State P} {t : Tid} {b : Box} {l : Msg → P.Loc t}
    (h : Move s t s') (hi : P.code t (s.loc t) = .recv b l) (hp : s.phase t ≠ .entry) :
    abstract s' = abstract s := by
  have hm := h
  cases h with
  | recvCopy c k hi' hp' =>
      have hloc := hm.abstractLoc_stay (fun _ _ _ _ => rfl)
        (by simp [abstractLoc, hi', hp'])
      exact Atomic.ext hloc rfl rfl rfl rfl rfl
  | recvPost c k m hi' hp' =>
      have hloc := hm.abstractLoc_stay (fun _ _ _ _ => rfl)
        ((abstractLoc_of_entry (by simp)).trans (by simp [abstractLoc, hi', hp']))
      exact Atomic.ext hloc rfl rfl rfl rfl rfl
  | recvWait c k hi' hp' hready => exact absurd hp' hp
  | core c hc => simp [hi, Core.next] at hc
  | sendWait c m k hi' hp' hfree => simp [hi] at hi'
  | sendCopy c m k hi' hp' => simp [hi] at hi'
  | sendPost c m m' k hi' hp' => simp [hi] at hi'

/-- Every step of the semaphore machine is an atomic step or no step at all. -/
theorem abstract_step {s s' : State P} {t : Tid} (hs : Exclusive s)
    (h : next t s = some s') :
    abstract s' = abstract s ∨ atomicNext t (abstract s) = some (abstract s') := by
  obtain ⟨ha, hm⟩ := next_eq_some_iff.mp h
  have hm' := hm
  cases hm with
  | sendWait b m l hi hp hfree =>
      left
      have hloc := hm'.abstractLoc_stay (fun _ _ _ _ => rfl)
        ((abstractLoc_of_send (by exact hi)).trans (abstractLoc_of_send hi).symm)
      exact Atomic.ext hloc rfl rfl rfl rfl rfl
  | sendCopy b m l hi hp =>
      left
      obtain ⟨-, hr, hh, -⟩ := (hs.box b).of_held
        ((held_of_ne_entry (by simp [hp])).trans (by rw [hi]; rfl) : held s t = some b)
      have hslot : ∀ u, u ≠ t → ∀ c, held s u = some c →
          Function.update s.slot b m c = s.slot c := by
        intro u hu c hc
        rw [Function.update_of_ne]
        rintro rfl
        exact hu ((hh u).mp hc)
      have hloc := hm'.abstractLoc_stay hslot
        ((abstractLoc_of_send (by exact hi)).trans (abstractLoc_of_send hi).symm)
      refine Atomic.ext hloc rfl rfl rfl rfl ?_
      funext c
      by_cases hc : c = b
      · subst hc
        simp [abstract, hr]
      · simp [abstract, hc]
  | sendPost b m m' l hi hp =>
      right
      have hheld : held s t = some b :=
        (held_of_ne_entry (by simp [hp])).trans (by rw [hi]; rfl)
      obtain ⟨-, hr, hh, hin⟩ := (hs.box b).of_held hheld
      have hslot : s.slot b = m := by cases hin <;> simp_all
      have hloc := hm'.abstractLoc_eq (fun _ _ _ _ => rfl) l
        ((abstractLoc_of_entry (by simp)).trans (by simp))
      have hcode : P.code t ((abstract s).loc t) = .send b m l := by
        rw [← hi]
        exact congrArg _ (abstractLoc_of_send hi)
      have hbox : (abstract s).box b = none := by simp [abstract, hr]
      refine atomicNext_eq_some_iff.mpr ⟨ha, ?_⟩
      convert AtomicMove.send b m l hcode hbox using 1
      refine Atomic.ext hloc rfl rfl rfl rfl ?_
      funext c
      by_cases hc : c = b
      · subst hc
        simp [abstract, hslot]
      · simp [abstract, hc]
  | recvWait b l hi hp hready =>
      right
      have hloc := hm'.abstractLoc_eq (fun _ _ _ _ => rfl) (l (s.slot b))
        (by simp [abstractLoc, hi])
      have hcode : P.code t ((abstract s).loc t) = .recv b l := by
        rw [← hi]
        exact congrArg _ (abstractLoc_of_entry hp)
      have hbox : (abstract s).box b = some (s.slot b) := by simp [abstract, hready]
      obtain ⟨-, hr, -, -⟩ := (hs.box b).of_ready hready
      refine atomicNext_eq_some_iff.mpr ⟨ha, ?_⟩
      convert AtomicMove.recv b l (s.slot b) hcode hbox using 1
      refine Atomic.ext hloc rfl rfl rfl rfl ?_
      funext c
      by_cases hc : c = b
      · subst hc
        simp [abstract, hr]
      · simp [abstract, hc]
  | recvCopy b l hi hp => exact .inl (hm'.abstract_eq_of_recv hi (by simp [hp]))
  | recvPost b l m hi hp => exact .inl (hm'.abstract_eq_of_recv hi (by simp [hp]))
  | core c hc =>
      right
      have hp : s.phase t = .entry := by
        by_contra hp
        exact (hs.inside t hp).2 ((held_of_ne_entry hp).trans (Core.box?_of_next hc))
      have hcode : P.code t ((abstract s).loc t) = P.code t (s.loc t) :=
        congrArg _ (abstractLoc_of_entry hp)
      refine atomicNext_eq_some_iff.mpr ⟨ha, ?_⟩
      exact AtomicMove.core _ (by rw [hcode]; exact Core.next_abstract hp hc)

/-- Runs of the semaphore machine are runs of the atomic machine. -/
theorem abstract_reachable {s₀ s : State P} (h₀ : Exclusive s₀)
    (hs : Transition.Reachable next s₀ s) :
    Transition.Reachable atomicNext (abstract s₀) (abstract s) :=
  hs.simulate abstract fun t _ _ ha h =>
    (abstract_step (h₀.of_reachable ha) h).imp_right fun h' => ⟨t, h'⟩

/-- A thread that is inside a mailbox is never blocked. -/
theorem phase_entry_of_stuck {s : State P} (hs : Exclusive s)
    (h : Transition.Stuck next s) {t : Tid} (ha : s.Active t) : s.phase t = .entry := by
  by_contra hp
  obtain ⟨-, hheld⟩ := hs.inside t hp
  rw [held_of_ne_entry hp] at hheld
  have hnone := h t
  unfold next at hnone
  rw [if_pos ha] at hnone
  cases hi : P.code t (s.loc t) <;> cases hq : s.phase t <;> simp_all [Instr.box?]

/-- A deadlock of the semaphore machine is a deadlock of the atomic machine. -/
theorem stuck_abstract {s : State P} (hs : Exclusive s) (h : Transition.Stuck next s) :
    Transition.Stuck atomicNext (abstract s) := by
  intro t
  by_cases ha : s.Active t
  · have hp := phase_entry_of_stuck hs h ha
    have hnone := h t
    have hloc : (abstract s).loc t = s.loc t := abstractLoc_of_entry hp
    have ha' : (abstract s).Active t := ha
    unfold next at hnone
    unfold atomicNext
    rw [if_pos ha] at hnone
    rw [if_pos ha', hloc]
    cases hi : P.code t (s.loc t) with
    | send b m l =>
        simp only [hi, hp, ite_eq_left_iff, reduceCtorEq, imp_false, not_not] at hnone
        have hready : s.ready b ≠ 0 := by
          intro hr
          cases hs.box b with
          | free hf hr' hh hlog => omega
          | ready hf hr' hh hlog => omega
          | busy u hf hr' hh hin =>
              have hu : s.phase u ≠ .entry := by
                intro hq
                have := (hh u).mpr rfl
                simp [held_of_entry hq] at this
              have hau : s.Active u := ⟨ha.1, (hs.inside u hu).1⟩
              exact hu (phase_entry_of_stuck hs h hau)
        simp [abstract, hready]
    | recv b l =>
        simp only [hi, hp, ite_eq_left_iff, reduceCtorEq, imp_false, not_not] at hnone
        simp [abstract, hnone]
    | _ =>
        simp only [hi, Option.map_eq_none_iff] at hnone ⊢
        exact Core.next_eq_none_congr s.toCore _ rfl rfl hnone
  · have ha' : ¬ (abstract s).Active t := ha
    simp [atomicNext, ha']

/-- A deadlock of the atomic machine is a deadlock of the semaphore machine. -/
theorem stuck_of_abstract {s : State P} (hs : Exclusive s) (hq : Quiescent s)
    (h : Transition.Stuck atomicNext (abstract s)) : Transition.Stuck next s := by
  intro t
  by_contra hne
  obtain ⟨s', hnext⟩ := Option.ne_none_iff_exists'.mp hne
  obtain ⟨ha, hm⟩ := next_eq_some_iff.mp hnext
  have hcode : P.code t ((abstract s).loc t) = P.code t (s.loc t) := by
    rw [hq.abstract_toCore]
  have hblocked : ∀ a', ¬ AtomicMove (abstract s) t a' := by
    intro a' hm'
    have hsome := atomicNext_eq_some_iff.mpr ⟨(ha : (abstract s).Active t), hm'⟩
    rw [h t] at hsome
    contradiction
  cases hm with
  | sendWait b m l hi hp hfree =>
      obtain ⟨-, hr, -, -⟩ := (hs.box b).of_free hfree
      exact hblocked _ (.send b m l (hcode.trans hi) (by simp [abstract, hr]))
  | recvWait b l hi hp hready =>
      exact hblocked _ (.recv b l (s.slot b) (hcode.trans hi) (by simp [abstract, hready]))
  | core c hc => exact hblocked _ (.core _ (by rw [hcode]; exact Core.next_abstract (hq t) hc))
  | sendCopy b m l hi hp => simp [hq t] at hp
  | sendPost b m m' l hi hp => simp [hq t] at hp
  | recvCopy b l hi hp => simp [hq t] at hp
  | recvPost b l m hi hp => simp [hq t] at hp

/-- Where no step is left, the messages that have been sent have been received, but for
the one that is still in the mailbox. -/
theorem deposited_of_stuck {s : State P} (hs : Exclusive s) (h : Transition.Stuck next s)
    (hab : s.aborted = false) (b : Box) :
    s.deposited b = s.returned b ++ ((abstract s).box b).toList := by
  cases hs.box b with
  | free hf hr hh hlog => simp [abstract, hr, hlog]
  | ready hf hr hh hlog => simp [abstract, hr, hlog]
  | busy t hf hr hh hin =>
      have hp : s.phase t ≠ .entry := fun hp => by
        have hheld := (hh t).mpr rfl
        rw [held_of_entry hp] at hheld
        contradiction
      exact absurd (phase_entry_of_stuck hs h ⟨hab, (hs.inside t hp).1⟩) hp

/-- A send to a free mailbox goes through while the other threads wait. -/
theorem send_reachable {s : State P} {t : Tid} {b : Box} {m : Msg} {l : P.Loc t}
    (ha : s.Active t) (hi : P.code t (s.loc t) = .send b m l) (hp : s.phase t = .entry)
    (hf : s.free b ≠ 0) :
    ∃ s', Transition.Reachable next s s' ∧ s'.toCore = s.toCore.goto t l ∧
      s'.phase = s.phase ∧ s'.ready = Function.update s.ready b (s.ready b + 1) ∧
      s'.slot = Function.update s.slot b m := by
  obtain ⟨s₁, h₁, hcore₁, hphase₁, hready₁, hslot₁⟩ : ∃ s₁, next t s = some s₁ ∧
      s₁.toCore = s.toCore ∧ s₁.phase = Function.update s.phase t .inside ∧
      s₁.ready = s.ready ∧ s₁.slot = s.slot :=
    ⟨_, next_eq_some_iff.mpr ⟨ha, .sendWait b m l hi hp hf⟩, rfl, rfl, rfl, rfl⟩
  obtain ⟨s₂, h₂, hcore₂, hphase₂, hready₂, hslot₂⟩ : ∃ s₂, next t s₁ = some s₂ ∧
      s₂.toCore = s₁.toCore ∧ s₂.phase = Function.update s₁.phase t (.copied m) ∧
      s₂.ready = s₁.ready ∧ s₂.slot = Function.update s₁.slot b m :=
    ⟨_, next_eq_some_iff.mpr ⟨hcore₁ ▸ ha, .sendCopy b m l (hcore₁ ▸ hi) (by simp [hphase₁])⟩,
      rfl, rfl, rfl, rfl⟩
  have h₃ := next_eq_some_iff.mpr ⟨(hcore₂.trans hcore₁) ▸ ha, Move.sendPost b m m l
    ((hcore₂.trans hcore₁) ▸ hi) (by rw [hphase₂, Function.update_self])⟩
  refine ⟨_, ((Relation.ReflTransGen.single ⟨t, h₁⟩).tail ⟨t, h₂⟩).tail ⟨t, h₃⟩, ?_, ?_, ?_, ?_⟩
  · rw [hcore₂, hcore₁]
  · simp [hphase₂, hphase₁, ← hp]
  · rw [hready₂, hready₁]
  · rw [hslot₂, hslot₁]

/-- A receive from a ready mailbox goes through while the other threads wait. -/
theorem recv_reachable {s : State P} {t : Tid} {b : Box} {l : Msg → P.Loc t}
    (ha : s.Active t) (hi : P.code t (s.loc t) = .recv b l) (hp : s.phase t = .entry)
    (hr : s.ready b ≠ 0) :
    ∃ s', Transition.Reachable next s s' ∧ s'.toCore = s.toCore.goto t (l (s.slot b)) ∧
      s'.phase = s.phase ∧ s'.ready = Function.update s.ready b (s.ready b - 1) ∧
      s'.slot = s.slot := by
  obtain ⟨s₁, h₁, hcore₁, hphase₁, hready₁, hslot₁⟩ : ∃ s₁, next t s = some s₁ ∧
      s₁.toCore = s.toCore ∧ s₁.phase = Function.update s.phase t .inside ∧
      s₁.ready = Function.update s.ready b (s.ready b - 1) ∧ s₁.slot = s.slot :=
    ⟨_, next_eq_some_iff.mpr ⟨ha, .recvWait b l hi hp hr⟩, rfl, rfl, rfl, rfl⟩
  obtain ⟨s₂, h₂, hcore₂, hphase₂, hready₂, hslot₂⟩ : ∃ s₂, next t s₁ = some s₂ ∧
      s₂.toCore = s₁.toCore ∧ s₂.phase = Function.update s₁.phase t (.copied (s₁.slot b)) ∧
      s₂.ready = s₁.ready ∧ s₂.slot = s₁.slot :=
    ⟨_, next_eq_some_iff.mpr ⟨hcore₁ ▸ ha, .recvCopy b l (hcore₁ ▸ hi) (by simp [hphase₁])⟩,
      rfl, rfl, rfl, rfl⟩
  have h₃ := next_eq_some_iff.mpr ⟨(hcore₂.trans hcore₁) ▸ ha, Move.recvPost b l (s₁.slot b)
    ((hcore₂.trans hcore₁) ▸ hi) (by rw [hphase₂, Function.update_self])⟩
  refine ⟨_, ((Relation.ReflTransGen.single ⟨t, h₁⟩).tail ⟨t, h₂⟩).tail ⟨t, h₃⟩, ?_, ?_, ?_, ?_⟩
  · rw [hcore₂, hcore₁, hslot₁]
  · simp [hphase₂, hphase₁, ← hp]
  · rw [hready₂, hready₁]
  · rw [hslot₂, hslot₁]

/-- From a quiescent state the semaphore machine carries out every atomic step. -/
theorem Quiescent.lift {s : State P} {t : Tid} {a : Atomic P} (hs : Exclusive s)
    (hq : Quiescent s) (h : atomicNext t (abstract s) = some a) :
    ∃ s', Transition.Reachable next s s' ∧ Quiescent s' ∧ abstract s' = a := by
  obtain ⟨ha, hm⟩ := atomicNext_eq_some_iff.mp h
  have ha : s.Active t := ha
  have hcore := hq.abstract_toCore
  have hext : ∀ s' : State P, Quiescent s' → s'.toCore = a.toCore →
      (∀ b, (abstract s').box b = a.box b) → abstract s' = a := by
    intro s' hq' hc hbox
    have hc' := hq'.abstract_toCore.trans hc
    exact Atomic.ext (by rw [hc']) (by rw [hc']) (by rw [hc']) (by rw [hc']) (by rw [hc'])
      (funext hbox)
  cases hm with
  | send b m l hi hb =>
      have hr : s.ready b = 0 := by simpa [abstract] using hb
      have hf : s.free b ≠ 0 := by
        cases hs.box b with
        | free hf hr hh hlog => omega
        | ready hf hr' hh hlog => omega
        | busy u hf hr' hh hin =>
            have hu := (hh u).mpr rfl
            simp [held_of_entry (hq u)] at hu
      obtain ⟨s', hreach, hcore', hphase, hready, hslot⟩ :=
        send_reachable ha (hcore ▸ hi) (hq t) hf
      have hq' : Quiescent s' := fun u => by rw [hphase, hq u]
      refine ⟨s', hreach, hq', hext s' hq' (by rw [hcore', hcore]) fun c => ?_⟩
      by_cases hc : c = b
      · subst hc
        simp [abstract, hready, hslot]
      · simp [abstract, hready, hslot, hc]
  | recv b l m hi hb =>
      have hr : s.ready b ≠ 0 := by
        intro hr
        simp [abstract, hr] at hb
      obtain rfl : s.slot b = m := by simpa [abstract, hr] using hb
      obtain ⟨-, hr1, -, -⟩ := (hs.box b).of_ready hr
      obtain ⟨s', hreach, hcore', hphase, hready, hslot⟩ :=
        recv_reachable ha (hcore ▸ hi) (hq t) hr
      have hq' : Quiescent s' := fun u => by rw [hphase, hq u]
      refine ⟨s', hreach, hq', hext s' hq' (by rw [hcore', hcore]) fun c => ?_⟩
      by_cases hc : c = b
      · subst hc
        simp [abstract, hready, hr1]
      · simp [abstract, hready, hslot, hc]
  | core c hc =>
      have hc' : s.toCore.next t (P.code t (s.loc t)) = some c := by
        rw [hcore] at hc
        exact hc
      have hnext := next_eq_some_iff.mpr ⟨ha, Move.core c hc'⟩
      exact ⟨_, Relation.ReflTransGen.single ⟨t, hnext⟩, hq, hext _ hq rfl fun _ => rfl⟩

/-- Every run of the atomic machine is carried out by the semaphore machine. -/
theorem exists_reachable_of_atomic {s₀ : State P} {a : Atomic P} (h₀ : Exclusive s₀)
    (hq₀ : Quiescent s₀) (ha : Transition.Reachable atomicNext (abstract s₀) a) :
    ∃ s, Transition.Reachable next s₀ s ∧ Quiescent s ∧ abstract s = a := by
  induction ha with
  | refl => exact ⟨s₀, Relation.ReflTransGen.refl, hq₀, rfl⟩
  | tail hab hbc ih =>
      obtain ⟨s, hs, hq, rfl⟩ := ih
      obtain ⟨t, ht⟩ := hbc
      obtain ⟨s', hs', hq', heq⟩ := hq.lift (h₀.of_reachable hs) ht
      exact ⟨s', hs.trans hs', hq', heq⟩

end Machine

end Thread

end OperatingSystems
