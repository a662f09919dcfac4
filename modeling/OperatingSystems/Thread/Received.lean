import OperatingSystems.Thread.Refinement

/-!
# The messages taken out of a mailbox

`received s b` lists the messages whose receive from `b` has passed its wait, in
order: those returned and the one a receiver is still copying. In the atomic
machine these are the receives that have happened, so the list grows by the
message in the mailbox exactly when an atomic receive takes it. The run rule at
the end carries an invariant of the atomic machine and of this list to every
reachable state.
-/

namespace OperatingSystems

namespace Thread

variable {Tid Box Sem Msg Mem : Type} {P : Program Tid Box Sem Msg Mem}

/-- Some thread is past the wait of a receive from `b`. -/
def Taking (s : State P) (b : Box) : Prop :=
  ∃ t l, P.code t (s.loc t) = .recv b l ∧ s.phase t ≠ .entry

open Classical in
/-- The messages taken out of mailbox `b`. -/
noncomputable def received (s : State P) (b : Box) : List Msg :=
  s.returned b ++ if Taking s b then [s.slot b] else []

theorem received_of_taking {s : State P} {b : Box} (h : Taking s b) :
    received s b = s.returned b ++ [s.slot b] := by
  rw [received, if_pos h]

theorem received_of_not_taking {s : State P} {b : Box} (h : ¬ Taking s b) :
    received s b = s.returned b := by
  rw [received, if_neg h, List.append_nil]

/-- A thread in the middle of a receive is inside the mailbox. -/
theorem received_of_not_held {s : State P} {b : Box} (h : ∀ t, held s t ≠ some b) :
    received s b = s.returned b := by
  refine received_of_not_taking ?_
  rintro ⟨t, l, hc, hp⟩
  exact h t (by rw [held_of_ne_entry hp, hc]; rfl)

/-- What a thread is reading when it has copied a message out of a mailbox. -/
theorem of_copied {s : State P} (hs : Exclusive s) {t : Tid} {b : Box} {l : Msg → P.Loc t}
    {m : Msg} (hc : P.code t (s.loc t) = .recv b l) (hp : s.phase t = .copied m) :
    received s b = s.returned b ++ [m] ∧ abstractLoc s t = l m := by
  have hheld : held s t = some b := (held_of_ne_entry (by simp [hp])).trans (by rw [hc]; rfl)
  obtain ⟨-, -, -, hin⟩ := (hs.box b).of_held hheld
  have hslot : s.slot b = m := by cases hin <;> simp_all
  refine ⟨?_, by simp [abstractLoc, hc, hp]⟩
  rw [received_of_taking ⟨t, l, hc, by simp [hp]⟩, hslot]

theorem received_congr {s s' : State P} {b : Box} (h : Taking s' b ↔ Taking s b)
    (hret : s'.returned b = s.returned b) (hslot : Taking s b → s'.slot b = s.slot b) :
    received s' b = received s b := by
  by_cases ht : Taking s b
  · rw [received_of_taking ht, received_of_taking (h.mpr ht), hret, hslot ht]
  · rw [received_of_not_taking ht, received_of_not_taking (mt h.mp ht), hret]

/-- While only one thread receives from a mailbox, and is not in the middle of
it, all messages taken out have been returned. -/
theorem received_eq_returned {s : State P} {b : Box}
    (h : ∀ t l, P.code t (s.loc t) = .recv b l → s.phase t = .entry) :
    received s b = s.returned b :=
  received_of_not_taking fun ⟨t, l, hc, hp⟩ => hp (h t l hc)

/-- The messages taken out, and the one that waits in the mailbox, have been
deposited in this order. -/
theorem received_append_box_isPrefix {s : State P} (hs : Exclusive s) (b : Box) :
    received s b ++ ((abstract s).box b).toList <+: s.deposited b := by
  have hbusy : s.ready b = 0 → received s b ++ ((abstract s).box b).toList = received s b := by
    intro hr
    simp [abstract, hr]
  cases hs.box b with
  | free hf hr hh hlog =>
      rw [hbusy hr, received_of_not_held hh]
      exact hlog ▸ List.prefix_rfl
  | ready hf hr hh hlog =>
      rw [received_of_not_held hh, hlog]
      simp [abstract, hr]
  | busy t hf hr hh hin =>
      rw [hbusy hr]
      have hsend : ∀ m l, P.code t (s.loc t) = .send b m l → ¬ Taking s b := by
        rintro m l hc ⟨u, l', hc', hp⟩
        obtain rfl := (hh u).mp (by rw [held_of_ne_entry hp, hc']; rfl)
        rw [hc] at hc'
        contradiction
      cases hin with
      | filling m l hc hp hlog =>
          rw [received_of_not_taking (hsend m l hc)]
          exact hlog ▸ List.prefix_rfl
      | filled m l hc hp hslot hlog =>
          rw [received_of_not_taking (hsend m l hc), hlog]
          exact List.prefix_append _ _
      | taking l hc hp hlog =>
          rw [received_of_taking ⟨t, l, hc, by simp [hp]⟩]
          exact hlog ▸ List.prefix_rfl
      | taken l hc hp hlog =>
          rw [received_of_taking ⟨t, l, hc, by simp [hp]⟩]
          exact hlog ▸ List.prefix_rfl

/-- In the first state no message has been taken out. -/
theorem received_initial {loc : ∀ t, P.Loc t} {status : Tid → Status} {sem : Sem → ℕ}
    {mem : Mem} {blank : Msg} (b : Box) :
    received (State.initial P loc status sem mem blank) b = [] :=
  received_eq_returned fun _ _ _ => rfl

section Step

variable [DecidableEq Box]

/-- The message that a step of thread `t` takes out of mailbox `b`. -/
def takes (t : Tid) (a : Atomic P) (b : Box) : List Msg :=
  match P.code t (a.loc t) with
  | .recv c _ => if c = b then (a.box b).toList else []
  | _ => []

theorem takes_of_recv {t : Tid} {a : Atomic P} {b : Box} {l : Msg → P.Loc t} {m : Msg}
    (hi : P.code t (a.loc t) = .recv b l) (hb : a.box b = some m) : takes t a b = [m] := by
  simp [takes, hi, hb]

theorem takes_of_not_recv {t : Tid} {a : Atomic P} {b : Box}
    (h : ∀ l, P.code t (a.loc t) ≠ .recv b l) : takes t a b = [] := by
  unfold takes
  split
  · rename_i c l hi
    rw [if_neg]
    rintro rfl
    exact h l hi
  · rfl

variable [DecidableEq Tid] [DecidableEq Sem]

namespace Move

variable {s s' : State P} {t : Tid}

/-- Whether some other thread is taking a message is not changed by a step. -/
theorem taking_iff (h : Move s t s') {b : Box}
    (ht : (∃ l, P.code t (s'.loc t) = .recv b l ∧ s'.phase t ≠ .entry) ↔
      ∃ l, P.code t (s.loc t) = .recv b l ∧ s.phase t ≠ .entry) :
    Taking s' b ↔ Taking s b := by
  unfold Taking
  refine exists_congr fun u => ?_
  by_cases hu : u = t
  · subst hu
    exact ht
  · rw [(h.others hu).1, (h.others hu).2]

/-- The messages taken out of a mailbox after a step: one more after the wait of
a receive from it. -/
theorem received_eq (h : Move s t s') (hs : Exclusive s) (b : Box) :
    (∃ l, P.code t (s.loc t) = .recv b l ∧ s.phase t = .entry ∧ s.ready b ≠ 0 ∧
        s'.ready b = 0 ∧ received s' b = received s b ++ [s.slot b]) ∨
      received s' b = received s b ∧
        ∀ l, P.code t (s.loc t) = .recv b l → s.phase t ≠ .entry := by
  have hm := h
  cases h with
  | sendWait c m l hi hp hfree =>
      right
      refine ⟨received_congr (hm.taking_iff ?_) rfl fun _ => rfl, by simp [hi]⟩
      simp [hi]
  | sendCopy c m l hi hp =>
      right
      refine ⟨received_congr (hm.taking_iff (by simp [hi])) rfl fun htaking => ?_, by simp [hi]⟩
      refine Function.update_of_ne ?_ _ _
      rintro rfl
      -- the sender is the one thread inside its mailbox
      obtain ⟨-, -, hh, -⟩ := (hs.box b).of_held
        ((held_of_ne_entry (by simp [hp])).trans (by rw [hi]; rfl) : held s t = some b)
      obtain ⟨u, l', hc, hpu⟩ := htaking
      obtain rfl := (hh u).mp (by rw [held_of_ne_entry hpu, hc]; rfl)
      rw [hi] at hc
      contradiction
  | sendPost c m m' l hi hp =>
      right
      refine ⟨received_congr (hm.taking_iff ?_) rfl fun _ => rfl, by simp [hi]⟩
      simp [hi]
  | recvWait c l hi hp hready =>
      by_cases hbc : c = b
      · subst hbc
        left
        obtain ⟨-, hr, hh, -⟩ := (hs.box c).of_ready hready
        refine ⟨l, hi, hp, hready, by simp [hr], ?_⟩
        rw [received_of_not_held hh]
        exact received_of_taking ⟨t, l, hi, by simp⟩
      · right
        refine ⟨received_congr (hm.taking_iff ?_) rfl fun _ => rfl, by simp [hi, hbc]⟩
        simp [hi, hbc]
  | recvCopy c l hi hp =>
      right
      refine ⟨received_congr (hm.taking_iff ?_) rfl fun _ => rfl, by simp [hp]⟩
      simp [hp]
  | recvPost c l m hi hp =>
      right
      refine ⟨?_, by simp [hp]⟩
      by_cases hbc : c = b
      · subst hbc
        have hheld : held s t = some c :=
          (held_of_ne_entry (by simp [hp])).trans (by rw [hi]; rfl)
        obtain ⟨-, -, hh, hin⟩ := (hs.box c).of_held hheld
        have hslot : s.slot c = m := by cases hin <;> simp_all
        rw [received_of_not_held (hm.held_none hh (by simp)),
          received_of_taking (⟨t, l, hi, by simp [hp]⟩ : Taking s c), hslot]
        simp
      · refine received_congr (hm.taking_iff ?_) (Function.update_of_ne (Ne.symm hbc) _ _)
          fun _ => rfl
        simp [hi, hbc]
  | core c hc =>
      right
      have hp : s.phase t = .entry := by
        by_contra hp
        exact (hs.inside t hp).2 ((held_of_ne_entry hp).trans (Core.box?_of_next hc))
      refine ⟨received_congr (hm.taking_iff (by simp [hp])) rfl fun _ => rfl, fun l hi => ?_⟩
      simp [hi, Core.next] at hc

end Move

/-- A thread that is inside a mailbox after a step has not moved on. -/
theorem Move.loc_eq_of_phase {s s' : State P} {t u : Tid} (hs : Exclusive s) (h : Move s t s')
    (hp : s'.phase u ≠ .entry) : s'.loc u = s.loc u := by
  by_cases hu : u = t
  · subst hu
    cases h with
    | core c hc =>
        have hheld := (hs.inside u hp).2
        rw [held_of_ne_entry (by exact hp), Core.box?_of_next hc] at hheld
        exact absurd rfl hheld
    | sendPost b m m' l hi hp' => simp at hp
    | recvPost b l m hi hp' => simp at hp
    | _ => rfl
  · exact (h.others hu).2

/-- Every control point of a thread has been reached before the thread went into
a mailbox there. -/
theorem exists_entry {s₀ s : State P} {t : Tid} (h₀ : Exclusive s₀)
    (hentry : s₀.phase t = .entry) (hs : Transition.Reachable next s₀ s) :
    ∃ s₁, Transition.Reachable next s₀ s₁ ∧ s₁.phase t = .entry ∧ s₁.loc t = s.loc t := by
  induction hs with
  | refl => exact ⟨s₀, Relation.ReflTransGen.refl, hentry, rfl⟩
  | @tail s s' hreach hstep ih =>
      by_cases hp : s'.phase t = .entry
      · exact ⟨s', hreach.tail hstep, hp, rfl⟩
      · obtain ⟨u, hnext⟩ := hstep
        have hm := (next_eq_some_iff.mp hnext).2
        rw [hm.loc_eq_of_phase (h₀.of_reachable hreach) hp]
        exact ih

/-- A step of the semaphore machine is an atomic step that takes out the
messages it is seen to take, or no atomic step and then takes none. -/
theorem received_step {s s' : State P} {t : Tid} (hs : Exclusive s) (h : next t s = some s')
    (b : Box) :
    abstract s' = abstract s ∧ received s' b = received s b ∨
      atomicNext t (abstract s) = some (abstract s') ∧
        received s' b = received s b ++ takes t (abstract s) b := by
  obtain ⟨-, hm⟩ := next_eq_some_iff.mp h
  rcases hm.received_eq hs b with ⟨l, hi, hp, hready, hready', heq⟩ | ⟨heq, hother⟩
  · right
    have hbox : (abstract s).box b = some (s.slot b) := by simp [abstract, hready]
    have hbox' : (abstract s').box b = none := by simp [abstract, hready']
    have hloc : (abstract s).loc t = s.loc t := abstractLoc_of_entry hp
    rcases abstract_step hs h with hsame | hstep
    · rw [hsame, hbox] at hbox'
      contradiction
    · rw [heq, takes_of_recv (by rw [hloc, hi]) hbox]
      exact ⟨hstep, rfl⟩
  · by_cases hrecv : ∃ c l, P.code t (s.loc t) = .recv c l ∧ s.phase t ≠ .entry
    · obtain ⟨c, l, hi, hp⟩ := hrecv
      exact .inl ⟨hm.abstract_eq_of_recv hi hp, heq⟩
    · have hloc : (abstract s).loc t = s.loc t := by
        by_cases hp : s.phase t = .entry
        · exact abstractLoc_of_entry hp
        · exact abstractLoc_of_not_recv fun c l hi => hrecv ⟨c, l, hi, hp⟩
      have hnone : takes t (abstract s) b = [] := by
        apply takes_of_not_recv
        intro l hi
        rw [hloc] at hi
        exact hrecv ⟨b, l, hi, hother l hi⟩
      rw [heq, hnone, List.append_nil]
      exact (abstract_step hs h).imp (fun hsame => ⟨hsame, rfl⟩) fun hstep => ⟨hstep, rfl⟩

/-- The run rule with the messages taken out of `b`: what holds initially of the
atomic state and of the messages, and survives every atomic step, holds of every
reachable state. -/
theorem received_invariant {s₀ s : State P} {b : Box} {I : Atomic P → List Msg → Prop}
    (h₀ : Exclusive s₀) (hs : Transition.Reachable next s₀ s)
    (hinit : I (abstract s₀) (received s₀ b))
    (hstep : ∀ t a a' log, Transition.Reachable atomicNext (abstract s₀) a → I a log →
      atomicNext t a = some a' → I a' (log ++ takes t a b)) :
    I (abstract s) (received s b) := by
  refine hs.invariant (I := fun s => I (abstract s) (received s b)) hinit ?_
  intro t c c' hc hI hnext
  have hexcl := h₀.of_reachable hc
  rcases received_step hexcl hnext b with ⟨hsame, heq⟩ | ⟨hatomic, heq⟩
  · rw [hsame, heq]
    exact hI
  · rw [heq]
    exact hstep t _ _ _ (abstract_reachable h₀ hc) hI hatomic

end Step

end Thread

end OperatingSystems
