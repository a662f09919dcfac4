import OperatingSystems.Interceptor.Dispatch

/-!
# What programs notice of the modules

`module` and `intercept` replace system calls that did nothing before, and
`openclose` passes on what it is called with. So programs that do not make these
two system calls get from the machine with the modules what they get without
them, whatever is loaded and unloaded while their calls are under way: the same
values in the same order, with the rest of the kernel in the same states. In the
log the lines of the modules come between those of the kernel.
-/

namespace OperatingSystems

namespace Interceptor

open OperatingSystems

variable {W : WordSize} {ι C E : Type*}

/-- Where the process would be without the modules. -/
def Stage.plain (original : ℕ → Word W) : Stage W → Stage W
  | .user => .user
  | .calls _ _ c => .calls (original c.number) [] c
  | .logged _ _ c => .calls (original c.number) [] c
  | .returns value _ c => .returns value [] c
  | .oops before => before.plain original

/-- The machine without the modules and their lines. -/
def System.plain (table : Word W) (k₀ : Kernel W) (log : List (List UInt8))
    (s : System W ι E) : System W ι E where
  modules := start k₀
  env := s.env
  stage := fun p => (s.stage p).plain fun n => k₀.mem (entry table n)
  log := log
  results := s.results

/-- No module is loaded or unloaded. -/
def Unmanaged (e : SystemEvent W ι) (_ : System W ι E) : Prop :=
  ∀ e', e ≠ .manage e'

/-- A call is none of those that `module` and `intercept` answer. -/
def Ordinary (K : Symbols W) (e : SystemEvent W ι) (_ : System W ι E) : Prop :=
  ∀ p c, e = .call p c → c.number ≠ K.nrSyscall1 ∧ c.number ≠ K.nrSyscall2

/-- The call of a process. -/
def Stage.call? : Stage W → Option (Call W)
  | .user => none
  | .calls _ _ c => some c
  | .logged _ _ c => some c
  | .returns _ _ c => some c
  | .oops before => before.call?

/-- The calls under way are ordinary ones. -/
def System.Ordinary (K : Symbols W) (s : System W ι E) : Prop :=
  ∀ q c, (s.stage q).call? = some c → c.number ≠ K.nrSyscall1 ∧ c.number ≠ K.nrSyscall2

section Steps

variable {K : Symbols W} {V : Services W ι C E} [DecidableEq ι] {table : Word W} {k₀ : Kernel W}
variable {s s' : System W ι E} {p : ι} {log : List (List UInt8)}

theorem plain_setStage (stage : Stage W) :
    (s.setStage p stage).plain table k₀ log =
      (s.plain table k₀ log).setStage p (stage.plain fun n => k₀.mem (entry table n)) :=
  congrArg (fun stage => ({ s.plain table k₀ log with stage := stage } : System W ι E))
    (Function.comp_update (Stage.plain fun n => k₀.mem (entry table n)) s.stage p stage)

theorem plain_setStage_self {stage : Stage W}
    (h : (stage.plain fun n => k₀.mem (entry table n)) =
      (s.stage p).plain fun n => k₀.mem (entry table n)) :
    (s.setStage p stage).plain table k₀ log = s.plain table k₀ log := by
  rw [plain_setStage, h]
  exact congrArg (fun stage => ({ s.plain table k₀ log with stage := stage } : System W ι E))
    (Function.update_eq_self p _)

omit [DecidableEq ι] in
theorem stage_plain :
    (s.plain table k₀ log).stage p = (s.stage p).plain fun n => k₀.mem (entry table n) := rfl

/-- The event does without the modules what it has done with them, or nothing. -/
def Follows (K : Symbols W) (V : Services W ι C E) (table : Word W) (k₀ : Kernel W)
    (log : List (List UInt8)) (s s' : System W ι E) (e : SystemEvent W ι) : Prop :=
  ∃ log', log'.Sublist s'.log ∧
    (s'.plain table k₀ log' = s.plain table k₀ log ∨
      systemNext K V table e (s.plain table k₀ log) = some (s'.plain table k₀ log'))

/-- What a process does in a call that is not answered by `module` or `intercept`. -/
theorem ProcessMove.follows (hK : K.Placed fun n => k₀.mem (entry table n))
    (hmove : ProcessMove K V (fun n => k₀.mem (entry table n)) s p s')
    (hordinary : s.Ordinary K) (hlog : log.Sublist s.log) :
    Follows K V table k₀ log s s' (.step p) := by
  have hquiet : ∀ {stage : Stage W} {lines : List (List UInt8)},
      (stage.plain fun n => k₀.mem (entry table n)) =
        (s.stage p).plain (fun n => k₀.mem (entry table n)) →
      Follows K V table k₀ log s
        ({ s with log := s.log ++ lines }.setStage p stage) (.step p) :=
    fun h => ⟨log, hlog.trans (List.sublist_append_left _ _), .inl (plain_setStage_self h)⟩
  have hsilent : ∀ {stage : Stage W},
      (stage.plain fun n => k₀.mem (entry table n)) =
        (s.stage p).plain (fun n => k₀.mem (entry table n)) →
      Follows K V table k₀ log s (s.setStage p stage) (.step p) :=
    fun h => ⟨log, hlog, .inl (plain_setStage_self h)⟩
  cases hmove with
  | kernel callers c hstage =>
      have hplain : (s.plain table k₀ log).stage p =
          .calls (k₀.mem (entry table c.number)) [] c := by
        rw [stage_plain, hstage, Stage.plain]
      refine ⟨log ++ (V.handle (k₀.mem (entry table c.number)) p c s.env).2.1,
        hlog.append (List.Sublist.refl _), .inr ?_⟩
      simp only [systemNext, hplain, runFunction_kernel (hK.handlerAt_original c), plain_setStage]
      rfl
  | line h c lines hstage => exact hquiet (by rw [hstage, Stage.plain, Stage.plain])
  | goodbye c hstage hslot =>
      exact absurd hslot.symm (hordinary p c (by rw [hstage, Stage.call?])).1
  | info c hstage hslot =>
      exact absurd hslot.symm (hordinary p c (by rw [hstage, Stage.call?])).2
  | saved h c hstage => exact hsilent (by rw [hstage, Stage.plain, Stage.plain])
  | back value h c hstage => exact hsilent (by rw [hstage, Stage.plain, Stage.plain])
  | answered value c hstage =>
      have hplain : (s.plain table k₀ log).stage p = .returns value [] c := by
        rw [stage_plain, hstage, Stage.plain]
      refine ⟨log, hlog, .inr ?_⟩
      simp only [systemNext, hplain, System.runReturn, plain_setStage]
      rfl
  | gone => exact hsilent rfl
  | unreadable => exact hsilent rfl

/-- A process stays with its call until it returns. -/
theorem ProcessMove.call? {original : ℕ → Word W} (hmove : ProcessMove K V original s p s')
    {q : ι} {c : Call W} (hc : (s'.stage q).call? = some c) : (s.stage q).call? = some c := by
  have hupdate : ∀ {stage : Stage W}, s'.stage = Function.update s.stage p stage →
      (stage.call? = some c → (s.stage p).call? = some c) → (s.stage q).call? = some c := by
    intro stage hs' hstage
    rw [hs'] at hc
    by_cases hq : q = p
    · subst hq
      rw [Function.update_self] at hc
      exact hstage hc
    · rwa [Function.update_of_ne hq] at hc
  cases hmove with
  | kernel callers c hstage => exact hupdate rfl fun h => by rwa [hstage]
  | line h c lines hstage => exact hupdate rfl fun h => by rwa [hstage]
  | goodbye c hstage => exact hupdate rfl fun h => by rwa [hstage]
  | info c hstage => exact hupdate rfl fun h => by rwa [hstage]
  | saved h c hstage => exact hupdate rfl fun h => by rwa [hstage]
  | back value h c hstage => exact hupdate rfl fun h => by rwa [hstage]
  | answered value c hstage => exact hupdate rfl fun h => by cases h
  | gone => exact hupdate rfl id
  | unreadable => exact hupdate rfl id

theorem System.Ordinary.next {e : SystemEvent W ι} (h : s.Ordinary K)
    (hsound : s.Sound K table k₀) (hK : K.Placed fun n => k₀.mem (entry table n))
    (he : Interceptor.Ordinary K e s) (hs : systemNext K V table e s = some s') :
    s'.Ordinary K := by
  intro q c hc
  cases e with
  | manage e =>
      obtain ⟨st, -, rfl⟩ := Option.map_eq_some_iff.mp hs
      exact h q c hc
  | step p =>
      have hmove := processMove_of_step hK hsound.modules (hsound.sane p) hs
      exact h q c (hmove.call? hc)
  | call p d =>
      simp only [systemNext] at hs
      split at hs
      case h_2 => cases hs
      case h_1 =>
        rw [← Option.some.inj hs] at hc
        by_cases hq : q = p
        · subst hq
          simp only [System.setStage, Function.update_self, Stage.call?, Option.some.injEq] at hc
          exact hc ▸ he q d rfl
        · simp only [System.setStage, Function.update_of_ne hq] at hc
          exact h q c hc

/-- A call of a process without the modules. -/
theorem follows_call {c : Call W} (hlog : log.Sublist s.log)
    (hs : systemNext K V table (.call p c) s = some s') :
    Follows K V table k₀ log s s' (.call p c) := by
  simp only [systemNext] at hs
  split at hs
  case h_2 => cases hs
  case h_1 hstage =>
    have hplain : (s.plain table k₀ log).stage p = .user := by
      rw [stage_plain, hstage, Stage.plain]
    rw [← Option.some.inj hs]
    refine ⟨log, hlog, .inr ?_⟩
    rw [plain_setStage, Stage.plain]
    simp only [systemNext, hplain]
    rfl

end Steps

section Runs

variable (K : Symbols W) (V : Services W ι C E) [DecidableEq ι] (table : Word W) {k₀ : Kernel W}
variable {e₀ : E} {s : System W ι E}

theorem ordinary_of_reachableBy (hK : K.Placed fun n => k₀.mem (entry table n))
    (hprot : k₀.cr0.getLsbD 16 = true)
    (hs : Transition.ReachableBy (Ordinary K) (systemNext K V table) (systemStart k₀ e₀) s) :
    s.Ordinary K :=
  hs.invariant (fun _ _ hc => by cases hc) fun _ _ _ ha he h hstep =>
    h.next (sound_of_reachable K V table hK hprot ha) hK he hstep

/-- Whatever is loaded and unloaded meanwhile: programs that make other calls than
those that `module` and `intercept` answer get the values that they get in a run in
which no module is loaded, in the same order, and the rest of the kernel is in the
same state. Its lines are in the log, in the same order, with others between them. -/
theorem plain_of_reachableBy (hK : K.Placed fun n => k₀.mem (entry table n))
    (hprot : k₀.cr0.getLsbD 16 = true)
    (hs : Transition.ReachableBy (Ordinary K) (systemNext K V table) (systemStart k₀ e₀) s) :
    ∃ s', Transition.ReachableBy Unmanaged (systemNext K V table) (systemStart k₀ e₀) s' ∧
      s'.results = s.results ∧ s'.env = s.env ∧ s'.log.Sublist s.log ∧
      ∀ p, s.stage p = .user → s'.stage p = .user := by
  obtain ⟨log, hlog, hplain⟩ : ∃ log, log.Sublist s.log ∧
      Transition.ReachableBy Unmanaged (systemNext K V table) (systemStart k₀ e₀)
        (s.plain table k₀ log) := by
    induction hs with
    | refl => exact ⟨[], List.nil_sublist _, Relation.ReflTransGen.refl⟩
    | tail ha hstep ih =>
        obtain ⟨log, hlog, hplain⟩ := ih
        obtain ⟨e, he, hstep⟩ := hstep
        have hsound := sound_of_reachable K V table hK hprot (Transition.ReachableBy.reachable ha)
        cases e with
        | manage e =>
            obtain ⟨st, -, rfl⟩ := Option.map_eq_some_iff.mp hstep
            exact ⟨log, hlog.trans (List.sublist_append_left _ _), hplain⟩
        | call p c =>
            have hfollows : Follows K V table k₀ log _ _ _ := follows_call hlog hstep
            obtain ⟨log', hlog', heq | hnext⟩ := hfollows
            · exact ⟨log', hlog', heq ▸ hplain⟩
            · exact ⟨log', hlog', hplain.snoc (t := .call p c) (fun _ h => by cases h) hnext⟩
        | step p =>
            have hmove := processMove_of_step hK hsound.modules (hsound.sane p) hstep
            obtain ⟨log', hlog', heq | hnext⟩ :=
              hmove.follows hK (ordinary_of_reachableBy K V table hK hprot ha) hlog
            · exact ⟨log', hlog', heq ▸ hplain⟩
            · exact ⟨log', hlog', hplain.snoc (t := .step p) (fun _ h => by cases h) hnext⟩
  exact ⟨_, hplain, rfl, rfl, hlog, fun p hp => by rw [stage_plain, hp, Stage.plain]⟩

end Runs

section Example

/-- `openclose` is loaded, and unloaded while one process is in its handler. That
process stops, and the other one is served as if nothing had happened. -/
theorem plain_open_unload :
    ∃ s s' : System .w32 Bool ℕ, (∃ before, s.stage true = .oops before) ∧
      s.results = [(false, openCall, 0)] ∧
      Transition.ReachableBy Unmanaged (systemNext linux32 counting 0xC0200000)
        (systemStart tableKernel 0) s' ∧
      s'.results = s.results ∧ s'.env = s.env ∧ s'.log.Sublist s.log ∧
      ∀ p, s.stage p = .user → s'.stage p = .user := by
  obtain ⟨s', hs'⟩ := plain_of_reachableBy linux32 counting 0xC0200000 placed_tableKernel
    (by decide) (Transition.ReachableBy.of_run [.manage (.load .openclose true),
      .call true openCall, .step true, .manage (.unload .openclose), .step true,
      .call false openCall, .step false, .step false] Relation.ReflTransGen.refl
      (fun t ht a p c heq => by
        obtain ⟨-, rfl⟩ | ⟨-, rfl⟩ : (p = true ∧ c = openCall) ∨ (p = false ∧ c = openCall) := by
          simpa [heq] using ht
        · decide
        · decide) rfl)
  exact ⟨_, s', ⟨_, rfl⟩, rfl, hs'⟩

end Example

end Interceptor

end OperatingSystems
