import OperatingSystems.Thread.Program

/-!
# One thread at a time at every mailbox

A mailbox is free, or ready, or has exactly one thread inside it. `BoxInv` says
which, and what the slot and the two histories hold there; `Inside` follows the
one thread through the middle of a send or of a receive. The semaphores never
add up to more than one, and the messages returned are those deposited, in the
same order, up to the one message still in the slot.
-/

namespace OperatingSystems

namespace Thread

variable {Tid Box Sem Msg Mem : Type} {P : Program Tid Box Sem Msg Mem}

/-- The mailbox that thread `t` is inside of. -/
def held (s : State P) (t : Tid) : Option Box :=
  match s.phase t with
  | .entry => none
  | _ => (P.code t (s.loc t)).box?

theorem held_of_entry {s : State P} {t : Tid} (h : s.phase t = .entry) :
    held s t = none := by
  simp [held, h]

theorem held_of_ne_entry {s : State P} {t : Tid} (h : s.phase t ≠ .entry) :
    held s t = (P.code t (s.loc t)).box? := by
  cases hp : s.phase t <;> simp_all [held]

theorem held_congr {s s' : State P} {t : Tid} (hp : s'.phase t = s.phase t)
    (hl : s'.loc t = s.loc t) : held s' t = held s t := by
  simp only [held, hp, hl]

/-- Thread `t` is in the middle of a send to `b` or of a receive from `b`. -/
inductive Inside (s : State P) (t : Tid) (b : Box) : Prop
  | filling (m : Msg) (l : P.Loc t) (hc : P.code t (s.loc t) = .send b m l)
      (hp : s.phase t = .inside) (hlog : s.deposited b = s.returned b)
  | filled (m : Msg) (l : P.Loc t) (hc : P.code t (s.loc t) = .send b m l)
      (hp : s.phase t = .copied m) (hslot : s.slot b = m)
      (hlog : s.deposited b = s.returned b ++ [m])
  | taking (l : Msg → P.Loc t) (hc : P.code t (s.loc t) = .recv b l)
      (hp : s.phase t = .inside) (hlog : s.deposited b = s.returned b ++ [s.slot b])
  | taken (l : Msg → P.Loc t) (hc : P.code t (s.loc t) = .recv b l)
      (hp : s.phase t = .copied (s.slot b))
      (hlog : s.deposited b = s.returned b ++ [s.slot b])

/-- The stage of mailbox `b`. -/
inductive BoxInv (s : State P) (b : Box) : Prop
  | free (hf : s.free b = 1) (hr : s.ready b = 0) (hh : ∀ t, held s t ≠ some b)
      (hlog : s.deposited b = s.returned b)
  | ready (hf : s.free b = 0) (hr : s.ready b = 1) (hh : ∀ t, held s t ≠ some b)
      (hlog : s.deposited b = s.returned b ++ [s.slot b])
  | busy (t : Tid) (hf : s.free b = 0) (hr : s.ready b = 0)
      (hh : ∀ u, held s u = some b ↔ u = t) (hin : Inside s t b)

namespace BoxInv

variable {s s' : State P} {b : Box}

theorem free_add_ready_le (h : BoxInv s b) : s.free b + s.ready b ≤ 1 := by
  cases h <;> omega

/-- The stage of a mailbox with thread `t` inside it. -/
theorem of_held (h : BoxInv s b) {t : Tid} (ht : held s t = some b) :
    s.free b = 0 ∧ s.ready b = 0 ∧ (∀ u, held s u = some b ↔ u = t) ∧ Inside s t b := by
  cases h with
  | free hf hr hh hlog => exact absurd ht (hh t)
  | ready hf hr hh hlog => exact absurd ht (hh t)
  | busy u hf hr hh hin =>
      obtain rfl := (hh t).mp ht
      exact ⟨hf, hr, hh, hin⟩

/-- At most one thread is inside a mailbox. -/
theorem held_unique (h : BoxInv s b) {t u : Tid} (ht : held s t = some b)
    (hu : held s u = some b) : t = u :=
  ((h.of_held hu).2.2.1 t).mp ht

/-- The stage of a mailbox whose `free` semaphore is up. -/
theorem of_free (h : BoxInv s b) (hf : s.free b ≠ 0) :
    s.free b = 1 ∧ s.ready b = 0 ∧ (∀ t, held s t ≠ some b) ∧
      s.deposited b = s.returned b := by
  cases h with
  | free hf' hr hh hlog => exact ⟨hf', hr, hh, hlog⟩
  | ready hf' hr hh hlog => exact absurd hf' hf
  | busy u hf' hr hh hin => exact absurd hf' hf

/-- The stage of a mailbox whose `ready` semaphore is up. -/
theorem of_ready (h : BoxInv s b) (hr : s.ready b ≠ 0) :
    s.free b = 0 ∧ s.ready b = 1 ∧ (∀ t, held s t ≠ some b) ∧
      s.deposited b = s.returned b ++ [s.slot b] := by
  cases h with
  | free hf hr' hh hlog => exact absurd hr' hr
  | ready hf hr' hh hlog => exact ⟨hf, hr', hh, hlog⟩
  | busy u hf hr' hh hin => exact absurd hr' hr

/-- The messages returned come first among those deposited, and at most one
deposited message has not been returned. -/
theorem returned_prefix (h : BoxInv s b) :
    s.returned b <+: s.deposited b ∧
      (s.deposited b).length ≤ (s.returned b).length + 1 := by
  have hlog : s.deposited b = s.returned b ∨
      ∃ m, s.deposited b = s.returned b ++ [m] := by
    cases h with
    | free hf hr hh hlog => exact .inl hlog
    | ready hf hr hh hlog => exact .inr ⟨_, hlog⟩
    | busy u hf hr hh hin =>
        cases hin with
        | filling m l hc hp hlog => exact .inl hlog
        | filled m l hc hp hslot hlog => exact .inr ⟨_, hlog⟩
        | taking l hc hp hlog => exact .inr ⟨_, hlog⟩
        | taken l hc hp hlog => exact .inr ⟨_, hlog⟩
  rcases hlog with hlog | ⟨m, hlog⟩ <;> simp [hlog]

/-- A step that touches neither the mailbox nor the thread inside it keeps its
stage. -/
theorem frame (h : BoxInv s b) (hf : s'.free b = s.free b) (hr : s'.ready b = s.ready b)
    (hslot : s'.slot b = s.slot b) (hdep : s'.deposited b = s.deposited b)
    (hret : s'.returned b = s.returned b)
    (hheld : ∀ u, held s' u = some b ↔ held s u = some b)
    (hsame : ∀ u, held s u = some b → s'.phase u = s.phase u ∧ s'.loc u = s.loc u) :
    BoxInv s' b := by
  have hnone : (∀ t, held s t ≠ some b) → ∀ t, held s' t ≠ some b :=
    fun hh t ht => hh t ((hheld t).mp ht)
  cases h with
  | free hf' hr' hh hlog =>
      exact .free (hf.trans hf') (hr.trans hr') (hnone hh) (by rw [hdep, hret, hlog])
  | ready hf' hr' hh hlog =>
      exact .ready (hf.trans hf') (hr.trans hr') (hnone hh) (by rw [hdep, hret, hslot, hlog])
  | busy t hf' hr' hh hin =>
      obtain ⟨hphase, hloc⟩ := hsame t ((hh t).mpr rfl)
      refine .busy t (hf.trans hf') (hr.trans hr') (fun u => (hheld u).trans (hh u)) ?_
      cases hin with
      | filling m l hc hp hlog =>
          exact .filling m l (by rw [hloc, hc]) (hphase.trans hp) (by rw [hdep, hret, hlog])
      | filled m l hc hp hslot' hlog =>
          exact .filled m l (by rw [hloc, hc]) (hphase.trans hp) (hslot.trans hslot')
            (by rw [hdep, hret, hlog])
      | taking l hc hp hlog =>
          exact .taking l (by rw [hloc, hc]) (hphase.trans hp)
            (by rw [hdep, hret, hslot, hlog])
      | taken l hc hp hlog =>
          exact .taken l (by rw [hloc, hc]) (by rw [hphase, hp, hslot])
            (by rw [hdep, hret, hslot, hlog])

end BoxInv

/-- Every mailbox is in one of its stages, and only a running thread at a
mailbox instruction is inside one. -/
structure Exclusive (s : State P) : Prop where
  box : ∀ b, BoxInv s b
  inside : ∀ t, s.phase t ≠ .entry → s.status t = .running ∧ held s t ≠ none

theorem exclusive_initial (P : Program Tid Box Sem Msg Mem) (loc : ∀ t, P.Loc t)
    (status : Tid → Status) (sem : Sem → ℕ) (mem : Mem) (blank : Msg) :
    Exclusive (State.initial P loc status sem mem blank) where
  box := fun b => .free rfl rfl (fun t => by simp [held, State.initial]) rfl
  inside := fun t h => absurd rfl h

section Step

variable [DecidableEq Tid] [DecidableEq Box] [DecidableEq Sem]

namespace Move

variable {s s' : State P} {t : Tid} {b : Box}

/-- A step leaves the phase and the control point of every other thread as they
were. -/
theorem others (h : Move s t s') {u : Tid} (hu : u ≠ t) :
    s'.phase u = s.phase u ∧ s'.loc u = s.loc u := by
  cases h with
  | core c hc => exact ⟨rfl, Core.next_loc_of_ne hc hu⟩
  | _ => simp [Core.goto, hu]

theorem held_of_ne (h : Move s t s') {u : Tid} (hu : u ≠ t) : held s' u = held s u :=
  held_congr (h.others hu).1 (h.others hu).2

/-- A thread that is inside `b` after its step, where nobody else was. -/
theorem held_only (h : Move s t s') (hbefore : ∀ u, u ≠ t → held s u ≠ some b)
    (hafter : held s' t = some b) (u : Tid) : held s' u = some b ↔ u = t := by
  constructor
  · intro hu
    by_contra hne
    exact hbefore u hne (h.held_of_ne hne ▸ hu)
  · rintro rfl
    exact hafter

/-- A thread that has left `b`, where it had been alone. -/
theorem held_none (h : Move s t s') (hbefore : ∀ u, held s u = some b ↔ u = t)
    (hafter : s'.phase t = .entry) (u : Tid) : held s' u ≠ some b := by
  by_cases hu : u = t
  · subst hu
    simp [held_of_entry hafter]
  · rw [h.held_of_ne hu]
    exact fun hb => hu ((hbefore u).mp hb)

/-- A mailbox that the step is not about keeps its stage. -/
theorem boxInv_of_ne (h : Move s t s') (hs : Exclusive s)
    (hne : (P.code t (s.loc t)).box? ≠ some b) : BoxInv s' b := by
  have hbefore : held s t ≠ some b := by
    intro ht
    by_cases hp : s.phase t = .entry
    · simp [held_of_entry hp] at ht
    · exact hne (held_of_ne_entry hp ▸ ht)
  have hafter : held s' t ≠ some b := by
    cases h with
    | core c hc =>
        have hp : s.phase t = .entry := by
          by_contra hp
          exact (hs.inside t hp).2 ((held_of_ne_entry hp).trans (Core.box?_of_next hc))
        simp [held, hp]
    | sendPost c m m' l hi hp => simp [held]
    | recvPost c l m hi hp => simp [held]
    | sendWait c m l hi hp hfree => simpa [held] using hne
    | sendCopy c m l hi hp => simpa [held] using hne
    | recvWait c l hi hp hready => simpa [held] using hne
    | recvCopy c l hi hp => simpa [held] using hne
  have hheld : ∀ u, held s' u = some b ↔ held s u = some b := by
    intro u
    by_cases hu : u = t
    · subst hu
      exact iff_of_false hafter hbefore
    · rw [h.held_of_ne hu]
  have hsame : ∀ u, held s u = some b → s'.phase u = s.phase u ∧ s'.loc u = s.loc u :=
    fun u hu => h.others fun he => hbefore (he ▸ hu)
  refine (hs.box b).frame ?_ ?_ ?_ ?_ ?_ hheld hsame
  all_goals
    cases h <;> simp_all [Instr.box?, Function.update_of_ne, Ne.symm]

/-- The mailbox that the step is about goes one stage on. -/
theorem boxInv_of_eq (h : Move s t s') (hs : Exclusive s)
    (hb : (P.code t (s.loc t)).box? = some b) : BoxInv s' b := by
  have hm := h
  have hheld : s.phase t ≠ .entry → held s t = some b := fun hp =>
    (held_of_ne_entry hp).trans hb
  cases h with
  | sendWait c m l hi hp hfree =>
      obtain rfl : c = b := by simpa [hi, Instr.box?] using hb
      obtain ⟨hf, hr, hh, hlog⟩ := (hs.box c).of_free hfree
      have hafter := hm.held_only (fun u _ => hh u)
        (by rw [held_of_ne_entry (by simp)]; exact hb)
      exact .busy t (by simp [hf]) hr hafter (.filling m l hi (by simp) hlog)
  | sendCopy c m l hi hp =>
      obtain rfl : c = b := by simpa [hi, Instr.box?] using hb
      obtain ⟨hf, hr, hh, hin⟩ := (hs.box c).of_held (hheld (by simp [hp]))
      have hlog : s.deposited c = s.returned c := by cases hin <;> simp_all
      have hafter := hm.held_only (fun u hu hc => hu ((hh u).mp hc))
        (by rw [held_of_ne_entry (by simp)]; exact hb)
      exact .busy t hf hr hafter (.filled m l hi (by simp) (by simp) (by simp [hlog]))
  | sendPost c m m' l hi hp =>
      obtain rfl : c = b := by simpa [hi, Instr.box?] using hb
      obtain ⟨hf, hr, hh, hin⟩ := (hs.box c).of_held (hheld (by simp [hp]))
      have hlog : s.deposited c = s.returned c ++ [s.slot c] := by cases hin <;> simp_all
      exact .ready hf (by simp [hr]) (hm.held_none hh (by simp)) hlog
  | recvWait c l hi hp hready =>
      obtain rfl : c = b := by simpa [hi, Instr.box?] using hb
      obtain ⟨hf, hr, hh, hlog⟩ := (hs.box c).of_ready hready
      have hafter := hm.held_only (fun u _ => hh u)
        (by rw [held_of_ne_entry (by simp)]; exact hb)
      exact .busy t hf (by simp [hr]) hafter (.taking l hi (by simp) hlog)
  | recvCopy c l hi hp =>
      obtain rfl : c = b := by simpa [hi, Instr.box?] using hb
      obtain ⟨hf, hr, hh, hin⟩ := (hs.box c).of_held (hheld (by simp [hp]))
      have hlog : s.deposited c = s.returned c ++ [s.slot c] := by cases hin <;> simp_all
      have hafter := hm.held_only (fun u hu hc => hu ((hh u).mp hc))
        (by rw [held_of_ne_entry (by simp)]; exact hb)
      exact .busy t hf hr hafter (.taken l hi (by simp) hlog)
  | recvPost c l m hi hp =>
      obtain rfl : c = b := by simpa [hi, Instr.box?] using hb
      obtain ⟨hf, hr, hh, hin⟩ := (hs.box c).of_held (hheld (by simp [hp]))
      have hlog : s.deposited c = s.returned c ++ [m] := by cases hin <;> simp_all
      exact .free (by simp [hf]) hr (hm.held_none hh (by simp)) (by simp [hlog])
  | core c hc =>
      rw [Core.box?_of_next hc] at hb
      contradiction

/-- A step keeps a thread that is inside a mailbox running. -/
theorem inside (h : Move s t s') (ht : s.status t = .running) (hs : Exclusive s) (u : Tid)
    (hu : s'.phase u ≠ .entry) : s'.status u = .running ∧ held s' u ≠ none := by
  by_cases hut : u = t
  · subst hut
    rw [held_of_ne_entry hu]
    cases h with
    | core c hc =>
        have hbefore : s.phase u ≠ .entry := hu
        obtain ⟨-, hheld⟩ := hs.inside u hbefore
        rw [held_of_ne_entry hbefore, Core.box?_of_next hc] at hheld
        exact absurd rfl hheld
    | sendPost c m m' l hi hp => simp at hu
    | recvPost c l m hi hp => simp at hu
    | sendWait c m l hi hp hfree => exact ⟨ht, by simp [hi, Instr.box?]⟩
    | sendCopy c m l hi hp => exact ⟨ht, by simp [hi, Instr.box?]⟩
    | recvWait c l hi hp hready => exact ⟨ht, by simp [hi, Instr.box?]⟩
    | recvCopy c l hi hp => exact ⟨ht, by simp [hi, Instr.box?]⟩
  · obtain ⟨hrun, hheld⟩ := hs.inside u ((h.others hut).1 ▸ hu)
    refine ⟨?_, h.held_of_ne hut ▸ hheld⟩
    cases h with
    | core c hc => exact Core.next_status_of_ne hc hut hrun
    | _ => exact hrun

end Move

/-- Every step keeps the mailboxes in their stages. -/
theorem Exclusive.step {s s' : State P} {t : Tid} (hs : Exclusive s)
    (h : next t s = some s') : Exclusive s' := by
  obtain ⟨⟨-, ht⟩, hm⟩ := next_eq_some_iff.mp h
  refine ⟨fun b => ?_, hm.inside ht hs⟩
  by_cases hb : (P.code t (s.loc t)).box? = some b
  · exact hm.boxInv_of_eq hs hb
  · exact hm.boxInv_of_ne hs hb

theorem Exclusive.of_reachable {s s₀ : State P} (h₀ : Exclusive s₀)
    (hs : Transition.Reachable next s₀ s) : Exclusive s :=
  hs.invariant h₀ fun _ _ _ _ ha h => ha.step h

end Step

end Thread

end OperatingSystems
