import OperatingSystems.Thread.Program

/-!
# Programs that do more than others on the side

A program covers another one when every control point and every memory of it
stands for one of the other, and every instruction either does what the other
program does there, or is an access that the other program does not see. Such
accesses come one after the other only finitely often. Then the runs of both
programs visit the same states, up to what is not seen, and the larger program
comes to a halt only where the smaller one does.
-/

namespace OperatingSystems

namespace Thread

variable {Tid Box Sem Msg Mem Mem' : Type}

section Instructions

variable {Loc Loc' : Type}

/-- Both instructions do the same, up to `mem` and `loc`. -/
inductive Instr.Matches (mem : Mem' → Mem) (loc : Loc' → Loc) :
    Instr Tid Box Sem Msg Mem' Loc' → Instr Tid Box Sem Msg Mem Loc → Prop
  | send {b : Box} {m : Msg} {l : Loc'} {l' : Loc} (h : loc l = l') :
      Matches mem loc (.send b m l) (.send b m l')
  | recv {b : Box} {k : Msg → Loc'} {k' : Msg → Loc} (h : ∀ m, loc (k m) = k' m) :
      Matches mem loc (.recv b k) (.recv b k')
  | wait {q : Sem} {l : Loc'} {l' : Loc} (h : loc l = l') :
      Matches mem loc (.wait q l) (.wait q l')
  | post {q : Sem} {l : Loc'} {l' : Loc} (h : loc l = l') :
      Matches mem loc (.post q l) (.post q l')
  | access {f : Mem' → Mem' × Loc'} {f' : Mem → Mem × Loc}
      (h : ∀ m, f' (mem m) = (mem (f m).1, loc (f m).2)) :
      Matches mem loc (.access f) (.access f')
  | create {u : Tid} {l : Loc'} {l' : Loc} (h : loc l = l') :
      Matches mem loc (.create u l) (.create u l')
  | join {u : Tid} {l : Loc'} {l' : Loc} (h : loc l = l') :
      Matches mem loc (.join u l) (.join u l')
  | exit : Matches mem loc .exit .exit
  | abort : Matches mem loc .abort .abort

/-- An access that is not seen, and that does not go on for ever. -/
def Instr.Silent (mem : Mem' → Mem) (loc : Loc' → Loc) (rank : Loc' → ℕ) (l : Loc')
    (i : Instr Tid Box Sem Msg Mem' Loc') : Prop :=
  ∃ f, i = .access f ∧
    ∀ m, mem (f m).1 = mem m ∧ loc (f m).2 = loc l ∧ rank (f m).2 < rank l

end Instructions

/-- How the program `Q` covers the program `P`. -/
structure Erasure (Q : Program Tid Box Sem Msg Mem') (P : Program Tid Box Sem Msg Mem) where
  loc : ∀ t, Q.Loc t → P.Loc t
  mem : Mem' → Mem
  rank : ∀ t, Q.Loc t → ℕ
  covers : ∀ t l, (Q.code t l).Silent mem (loc t) (rank t) l ∨
    (Q.code t l).Matches mem (loc t) (P.code t (loc t l))

namespace Erasure

variable {Q : Program Tid Box Sem Msg Mem'} {P : Program Tid Box Sem Msg Mem}
variable (E : Erasure Q P)

def core (c : Core Q) : Core P where
  loc := fun t => E.loc t (c.loc t)
  status := c.status
  aborted := c.aborted
  sem := c.sem
  mem := E.mem c.mem

/-- What the smaller program sees of a state. -/
def state (s : State Q) : State P where
  toCore := E.core s.toCore
  phase := s.phase
  free := s.free
  ready := s.ready
  slot := s.slot
  deposited := s.deposited
  returned := s.returned

@[simp] theorem core_loc (c : Core Q) (t : Tid) : (E.core c).loc t = E.loc t (c.loc t) := rfl

@[simp] theorem core_active (c : Core Q) (t : Tid) : (E.core c).Active t ↔ c.Active t := Iff.rfl

variable [DecidableEq Tid]

theorem core_goto (c : Core Q) (t : Tid) (l : Q.Loc t) :
    E.core (c.goto t l) = (E.core c).goto t (E.loc t l) := by
  have hloc : (fun u => E.loc u (Function.update c.loc t l u)) =
      Function.update (fun u => E.loc u (c.loc u)) t (E.loc t l) := by
    funext u
    by_cases hu : u = t
    · subst hu
      simp
    · simp [hu]
  simp only [core, Core.goto, hloc]

section Steps

variable [DecidableEq Sem]

/-- A step off the mailboxes, where both programs do the same. -/
theorem core_next {t : Tid} {i : Instr Tid Box Sem Msg Mem' (Q.Loc t)}
    {i' : Instr Tid Box Sem Msg Mem (P.Loc t)} (h : i.Matches E.mem (E.loc t) i') (c : Core Q) :
    (c.next t i).map E.core = (E.core c).next t i' := by
  have hgoto := fun l => congrArg Core.loc (E.core_goto c t l)
  cases h with
  | wait h =>
      simp only [Core.next]
      split
      · simp_all [core]
      · simp_all [core, Core.goto]
  | post h => simp_all [Core.next, core, Core.goto]
  | access h => simp_all [Core.next, core, Core.goto]
  | create h => simp_all [Core.next, core, Core.goto]
  | join h =>
      simp only [Core.next]
      split
      · simp_all [core, Core.goto]
      · simp_all [core]
  | _ => rfl

variable [DecidableEq Box]

/-- A step that both programs take. -/
theorem next_of_matches {t : Tid} {s : State Q}
    (h : (Q.code t (s.loc t)).Matches E.mem (E.loc t) (P.code t (E.loc t (s.loc t)))) :
    (next t s).map E.state = next t (E.state s) := by
  have hactive : (E.state s).Active t ↔ s.Active t := Iff.rfl
  by_cases ha : s.Active t
  · generalize hi : Q.code t (s.loc t) = i at h
    generalize hi' : P.code t (E.loc t (s.loc t)) = i' at h
    have hcore := E.core_next h s.toCore
    cases h with
    | @send b _ _ _ h =>
        cases hp : s.phase t with
        | entry => by_cases hfree : s.free b = 0 <;> simp [next, state, ha, hi, hi', hp, hfree]
        | inside => simp [next, state, ha, hi, hi', hp]
        | copied m => simp [next, state, ha, hi, hi', hp, core_goto, h]
    | @recv b _ _ h =>
        cases hp : s.phase t with
        | entry => by_cases hready : s.ready b = 0 <;> simp [next, state, ha, hi, hi', hp, hready]
        | inside => simp [next, state, ha, hi, hi', hp]
        | copied m => simp [next, state, ha, hi, hi', hp, core_goto, h]
    | _ =>
        have hi'' : P.code t ((E.state s).loc t) = _ := hi'
        rw [next_core ha (by rw [hi]; rfl), next_core (hactive.mpr ha) (by rw [hi'']; rfl), hi,
          hi'', Option.map_map]
        change _ = ((E.core s.toCore).next t _).map _
        rw [← hcore, Option.map_map]
        rfl
  · rw [next_eq_none_of_not_active ha, next_eq_none_of_not_active (mt hactive.mp ha)]
    rfl

/-- A step that the smaller program does not see. -/
theorem next_of_silent {t : Tid} {s : State Q} (ha : s.Active t)
    (h : (Q.code t (s.loc t)).Silent E.mem (E.loc t) (E.rank t) (s.loc t)) :
    ∃ s', next t s = some s' ∧ E.state s' = E.state s ∧
      E.rank t (s'.loc t) < E.rank t (s.loc t) := by
  obtain ⟨f, hf, hsilent⟩ := h
  obtain ⟨hmem, hloc, hrank⟩ := hsilent s.mem
  refine ⟨{ s with toCore := { s.toCore.goto t (f s.mem).2 with mem := (f s.mem).1 } }, ?_, ?_, ?_⟩
  · rw [next_core ha (by rw [hf]; rfl), hf]
    rfl
  · have hgoto := E.core_goto s.toCore t (f s.mem).2
    have hself : (E.core s.toCore).goto t (E.loc t (s.loc t)) = E.core s.toCore := by
      simp [Core.goto, core]
    rw [hloc, hself] at hgoto
    simp_all [state, core, Core.goto]
  · simpa using hrank

/-- A step of the larger program is one of the smaller program or is not seen. -/
theorem state_of_next {t : Tid} {s s' : State Q} (h : next t s = some s') :
    E.state s' = E.state s ∨ next t (E.state s) = some (E.state s') := by
  rcases E.covers t (s.loc t) with hsilent | hmatches
  · obtain ⟨s'', hs'', heq, -⟩ := E.next_of_silent (next_eq_some_iff.mp h).1 hsilent
    rw [h] at hs''
    exact .inl (Option.some.inj hs'' ▸ heq)
  · exact .inr (by rw [← E.next_of_matches hmatches, h]; rfl)

/-- Where the smaller program can take a step the larger one can, at once or after a
step that is not seen. -/
theorem next_of_state {t : Tid} {s : State Q} {p : State P} (h : next t (E.state s) = some p) :
    ∃ s', next t s = some s' ∧
      (E.state s' = p ∨ E.state s' = E.state s ∧ E.rank t (s'.loc t) < E.rank t (s.loc t)) := by
  rcases E.covers t (s.loc t) with hsilent | hmatches
  · obtain ⟨s', hs', heq, hrank⟩ := E.next_of_silent (next_eq_some_iff.mp h).1 hsilent
    exact ⟨s', hs', .inr ⟨heq, hrank⟩⟩
  · rw [← E.next_of_matches hmatches] at h
    obtain ⟨s', hs', heq⟩ := Option.map_eq_some_iff.mp h
    exact ⟨s', hs', .inl heq⟩

/-- A state in which the larger program has come to a halt is one for the smaller
program. -/
theorem stuck_state {s : State Q} (h : Transition.Stuck next s) :
    Transition.Stuck next (E.state s) := by
  intro t
  by_contra hne
  obtain ⟨p, hp⟩ := Option.ne_none_iff_exists'.mp hne
  obtain ⟨s', hs', -⟩ := E.next_of_state hp
  rw [h t] at hs'
  contradiction

/-- The larger program catches up with a step of the smaller one. -/
theorem exists_step {init s : State Q} (hs : Transition.Reachable next init s) {t : Tid}
    {p : State P} (h : next t (E.state s) = some p) :
    ∃ s', Transition.Reachable next init s' ∧ E.state s' = p := by
  induction hn : E.rank t (s.loc t) using Nat.strong_induction_on generalizing s with
  | h n ih =>
      obtain ⟨s', hs', heq | ⟨heq, hrank⟩⟩ := E.next_of_state h
      · exact ⟨s', hs.tail ⟨t, hs'⟩, heq⟩
      · exact ih _ (hn ▸ hrank) (hs.tail ⟨t, hs'⟩) (heq.symm ▸ h) rfl

/-- The runs of both programs visit the same states, up to what is not seen. -/
theorem reachable_iff {init : State Q} {p : State P} :
    Transition.Reachable next (E.state init) p ↔
      ∃ s, Transition.Reachable next init s ∧ E.state s = p := by
  constructor
  · intro hp
    induction hp with
    | refl => exact ⟨init, Relation.ReflTransGen.refl, rfl⟩
    | tail _ hstep ih =>
        obtain ⟨s, hs, rfl⟩ := ih
        obtain ⟨t, ht⟩ := hstep
        exact E.exists_step hs ht
  · rintro ⟨s, hs, rfl⟩
    exact hs.simulate E.state fun t a a' _ hnext =>
      (E.state_of_next hnext).imp_right fun h => ⟨t, h⟩

end Steps

end Erasure

end Thread

end OperatingSystems
