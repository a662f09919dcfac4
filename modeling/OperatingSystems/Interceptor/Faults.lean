import OperatingSystems.Interceptor.Dispatch

/-!
# When the modules stop a process

The modules do not count the processes in their handlers. A process that is in a
handler, or in the function that the handler has called, runs into code that is
gone when the module is unloaded. `openclose` also reads the path of a file before
`open` has checked it. Where neither happens no process is stopped, in whatever
order the rest goes on, and each of the two can stop a process.
-/

namespace OperatingSystems

namespace Interceptor

open OperatingSystems

variable {W : WordSize} {ι C E : Type*}

/-- The process is still to run code of a module. -/
def Stage.InCode (K : Symbols W) (m : KernelModule) : Stage W → Prop
  | .user => False
  | .calls a callers _ =>
    (∃ h : Handler, h.owner = m ∧ a = K.address h) ∨ ∃ h ∈ callers, h.owner = m
  | .logged h callers _ => h.owner = m ∨ ∃ h' ∈ callers, h'.owner = m
  | .returns _ callers _ => ∃ h ∈ callers, h.owner = m
  | .oops _ => False

def Stage.Stopped : Stage W → Prop
  | .oops _ => True
  | _ => False

/-- No process is in the code of a module that is unloaded, and a path that is to be
written to the log can be read. -/
def Harmless (K : Symbols W) (V : Services W ι C E) : SystemEvent W ι → System W ι E → Prop
  | .manage (.load _ _), _ => True
  | .manage (.unload m), s => ∀ p, ¬ (s.stage p).InCode K m
  | .call _ _, _ => True
  | .step p, s => ∀ c, s.stage p = .calls K.newOpen [] c →
      1000 ≤ (V.currentUid p s.env).toNat → V.userString p c.arg1 s.env ≠ none

/-- Modules with a process in their code are loaded, and no process has stopped. -/
structure System.Running (K : Symbols W) (s : System W ι E) : Prop where
  loaded : ∀ p m, (s.stage p).InCode K m → s.modules.loaded m ≠ none
  going : ∀ p, ¬ (s.stage p).Stopped

section Steps

variable {K : Symbols W} {V : Services W ι C E} {original : ℕ → Word W} [DecidableEq ι]
variable {s s' : System W ι E} {p : ι} {table : Word W} {k₀ : Kernel W}

theorem System.Running.setStage (h : s.Running K) {stage : Stage W}
    (hcode : ∀ m, stage.InCode K m → (s.stage p).InCode K m) (hgoing : ¬ stage.Stopped) :
    (s.setStage p stage).Running K where
  loaded := fun q m hq => by
    by_cases heq : q = p
    · subst heq
      simp only [System.setStage, Function.update_self] at hq
      exact h.loaded q m (hcode m hq)
    · simp only [System.setStage, Function.update_of_ne heq] at hq
      exact h.loaded q m hq
  going := fun q => by
    by_cases heq : q = p
    · subst heq
      simpa only [System.setStage, Function.update_self] using hgoing
    · simpa only [System.setStage, Function.update_of_ne heq] using h.going q

/-- A process does not come into the code of another module. -/
theorem ProcessMove.running (hK : K.Placed original) (h : s.Running K)
    (hmove : ProcessMove K V original s p s') (hharmless : Harmless K V (.step p) s) :
    s'.Running K := by
  have hfields : ∀ (e : E) (log : List (List UInt8)) (results : List (ι × Call W × ℤ)),
      ({ s with env := e, log := log, results := results } : System W ι E).Running K :=
    fun _ _ _ => ⟨h.loaded, h.going⟩
  have hnone : ∀ (value : ℤ) (c : Call W) m, ¬ (Stage.returns value [] c).InCode K m :=
    fun _ _ _ ⟨_, hmem, _⟩ => absurd hmem List.not_mem_nil
  cases hmove with
  | kernel callers c hstage =>
      refine (hfields _ _ s.results).setStage (fun m hm => ?_) not_false
      change (s.stage p).InCode K m
      rw [hstage]
      exact .inr hm
  | line hd c lines hstage =>
      refine (hfields s.env _ s.results).setStage (fun m hm => ?_) not_false
      change (s.stage p).InCode K m
      rw [hstage]
      exact hm.imp (fun howner => ⟨hd, howner, rfl⟩) id
  | goodbye c =>
      exact (hfields s.env _ s.results).setStage (fun m hm => absurd hm (hnone 0 c m)) not_false
  | info c =>
      exact (hfields _ s.log s.results).setStage (fun m hm => absurd hm (hnone _ c m)) not_false
  | saved hd c hstage =>
      refine h.setStage (fun m hm => ?_) not_false
      rw [hstage]
      rcases hm with ⟨hd', -, heq⟩ | ⟨hd', hmem, howner⟩
      · exact absurd heq (hK.original_ne c.number c.number_fits hd')
      · exact .inl (List.mem_singleton.mp hmem ▸ howner)
  | back value hd c =>
      exact h.setStage (fun m hm => absurd hm (hnone value c m)) not_false
  | answered value c => exact (hfields s.env s.log _).setStage (fun m hm => hm.elim) not_false
  | gone hd hgone hnext =>
      have hcode : (s.stage p).InCode K hd.owner := by
        rcases hnext with ⟨c, hstage⟩ | ⟨c, hstage⟩ | ⟨value, c, hstage⟩
        · rw [hstage]
          exact .inl ⟨hd, rfl, rfl⟩
        · rw [hstage]
          exact .inl rfl
        · rw [hstage]
          exact ⟨hd, List.mem_singleton_self hd, rfl⟩
      exact absurd hgone (h.loaded p hd.owner hcode)
  | unreadable c hstage huid hpath => exact absurd hpath (hharmless c hstage huid)

/-- A process that enters the code of a module finds it loaded. -/
theorem System.Running.call {c : Call W} (h : s.Running K) (hsound : s.Sound K table k₀)
    (hK : K.Placed fun n => k₀.mem (entry table n)) (hprot : k₀.cr0.getLsbD 16 = true) :
    (s.setStage p (.calls (s.modules.kernel.mem (entry table c.number)) [] c)).Running K where
  loaded := fun q m hq => by
    by_cases heq : q = p
    · subst heq
      simp only [System.setStage, Function.update_self] at hq ⊢
      rcases hq with ⟨hd, rfl, haddress⟩ | ⟨hd, hmem, -⟩
      · rcases hsound.modules.table_cases hprot c.number_fits with ⟨hmem, -⟩ | ⟨hd', -, hmem, hsome⟩
        · exact absurd (hmem.symm.trans haddress) (hK.original_ne c.number c.number_fits hd)
        · rw [hK.address_injective (haddress.symm.trans hmem)]
          exact Option.isSome_iff_ne_none.mp (K.answering_eq_some.mp hsome).2
      · exact absurd hmem List.not_mem_nil
    · simp only [System.setStage, Function.update_of_ne heq] at hq
      exact h.loaded q m hq
  going := fun q => by
    by_cases heq : q = p
    · subst heq
      simp only [System.setStage, Function.update_self]
      exact not_false
    · simpa only [System.setStage, Function.update_of_ne heq] using h.going q

omit [DecidableEq ι] in
/-- A load leaves the modules in the kernel that are there. -/
theorem loaded_of_load {m m' : KernelModule} {found : Bool} {st st' : State W}
    (hst : Interceptor.next K table (.load m found) st = some st') (hm' : st.loaded m' ≠ none) :
    st'.loaded m' ≠ none := by
  cases hm : st.loaded m with
  | some d => simp [Interceptor.next, hm] at hst
  | none =>
      simp only [Interceptor.next, hm, Option.some.injEq] at hst
      have hne : m' ≠ m := fun heq => hm' (heq ▸ hm)
      rw [← hst]
      by_cases hcode :
          (interceptorStart K m (if found = true then table else 0) st.kernel).1 = 0
      · simpa only [hcode, if_true, Function.update_of_ne hne] using hm'
      · simpa only [hcode, if_false] using hm'

omit [DecidableEq ι] in
theorem loaded_of_unload {m : KernelModule} {st st' : State W}
    (hst : Interceptor.next K table (.unload m) st = some st') :
    st'.loaded = Function.update st.loaded m none := by
  cases hm : st.loaded m with
  | none => simp [Interceptor.next, hm] at hst
  | some d =>
      simp only [Interceptor.next, hm, Option.some.injEq] at hst
      rw [← hst]

/-- One harmless event. -/
theorem System.Running.next (h : s.Running K) (hsound : s.Sound K table k₀)
    (hK : K.Placed fun n => k₀.mem (entry table n)) (hprot : k₀.cr0.getLsbD 16 = true)
    {e : SystemEvent W ι} (he : Harmless K V e s) (hs : systemNext K V table e s = some s') :
    s'.Running K := by
  cases e with
  | manage e =>
      obtain ⟨st, hst, rfl⟩ := Option.map_eq_some_iff.mp hs
      refine ⟨fun p m hcode => ?_, h.going⟩
      cases e with
      | load m' found => exact loaded_of_load hst (h.loaded p m hcode)
      | unload m' =>
          have hne : m ≠ m' := fun heq => he p (heq ▸ hcode)
          rw [loaded_of_unload hst, Function.update_of_ne hne]
          exact h.loaded p m hcode
  | call p c =>
      simp only [systemNext] at hs
      split at hs
      case h_2 => cases hs
      case h_1 => exact Option.some.inj hs ▸ h.call hsound hK hprot
  | step p => exact (processMove_of_step hK hsound.modules (hsound.sane p) hs).running hK h he

/-- The next thing that a process does is to run code that is gone. -/
theorem step_gone (hK : K.Placed original) {h : Handler} (hgone : s.modules.loaded h.owner = none)
    (hnext : (∃ c, s.stage p = .calls (K.address h) [] c) ∨
      (∃ c, s.stage p = .logged h [] c) ∨ ∃ value c, s.stage p = .returns value [h] c) :
    systemNext K V table (.step p) s = some (s.setStage p (.oops (s.stage p))) := by
  rcases hnext with ⟨c, hstage⟩ | ⟨c, hstage⟩ | ⟨value, c, hstage⟩
  · simp only [systemNext, hstage, runFunction_gone hK hgone]
  · simp only [systemNext, hstage, System.runSaved, hgone]
  · simp only [systemNext, hstage, System.runReturn, hgone, if_pos]

/-- The kernel answers a call that a handler passes on. -/
theorem step_saved (hK : K.Placed fun n => k₀.mem (entry table n)) {h : Handler} {c : Call W}
    (hstage : s.stage p = .calls (k₀.mem (entry table c.number)) [h] c) :
    ∃ s₁ value, systemNext K V table (.step p) s = some s₁ ∧
      s₁.stage p = .returns value [h] c ∧ s₁.modules = s.modules := by
  simp only [systemNext, hstage, runFunction_kernel (hK.handlerAt_original c)]
  exact ⟨_, (V.handle (k₀.mem (entry table c.number)) p c s.env).1, rfl,
    Function.update_self p _ _, rfl⟩

theorem stopped_setStage (before : Stage W) :
    ((s.setStage p (.oops before)).stage p).Stopped := by
  simp only [System.setStage, Function.update_self]
  trivial

/-- Where a process is in the code of a module that is gone, it stops after one or
two steps of its own. -/
theorem stops_of_inCode {m : KernelModule} (hsound : s.Sound K table k₀)
    (hK : K.Placed fun n => k₀.mem (entry table n)) (hcode : (s.stage p).InCode K m)
    (hgone : s.modules.loaded m = none) :
    ∃ n s', Transition.run (systemNext K V table) (List.replicate n (.step p)) s = some s' ∧
      (s'.stage p).Stopped := by
  have hone : ∀ {h : Handler}, h.owner = m →
      ((∃ c, s.stage p = .calls (K.address h) [] c) ∨ (∃ c, s.stage p = .logged h [] c) ∨
        ∃ value c, s.stage p = .returns value [h] c) →
      ∃ n s', Transition.run (systemNext K V table) (List.replicate n (.step p)) s = some s' ∧
        (s'.stage p).Stopped := by
    rintro h rfl hnext
    refine ⟨1, s.setStage p (.oops (s.stage p)), ?_, stopped_setStage _⟩
    rw [List.replicate_one, Transition.run, step_gone hK hgone hnext]
    rfl
  have hsane := hsound.sane p
  generalize hstage : s.stage p = stage at hsane hcode
  cases hsane with
  | user => exact hcode.elim
  | oops before _ => exact hcode.elim
  | kernel c =>
      obtain ⟨hd, -, heq⟩ | ⟨hd, hmem, -⟩ := hcode
      · exact absurd heq (hK.original_ne c.number c.number_fits hd)
      · exact absurd hmem List.not_mem_nil
  | answered value c =>
      obtain ⟨hd, hmem, -⟩ := hcode
      exact absurd hmem List.not_mem_nil
  | handler hd c hslot =>
      obtain ⟨hd', howner, heq⟩ | ⟨hd', hmem, -⟩ := hcode
      · exact hone howner (.inl ⟨c, heq ▸ hstage⟩)
      · exact absurd hmem List.not_mem_nil
  | logged hd c _ hslot =>
      obtain howner | ⟨hd', hmem, -⟩ := hcode
      · exact hone howner (.inr (.inl ⟨c, hstage⟩))
      · exact absurd hmem List.not_mem_nil
  | back value hd c _ =>
      obtain ⟨hd', hmem, howner⟩ := hcode
      exact hone (List.mem_singleton.mp hmem ▸ howner) (.inr (.inr ⟨value, c, hstage⟩))
  | saved hd c _ =>
      obtain ⟨hd', -, heq⟩ | ⟨hd', hmem, howner⟩ := hcode
      · exact absurd heq (hK.original_ne c.number c.number_fits hd')
      · -- the kernel still answers the call, and the handler is gone then
        obtain rfl := List.mem_singleton.mp hmem
        obtain ⟨s₁, value, hstep, hstage₁, hmodules⟩ := step_saved (V := V) hK hstage
        refine ⟨2, s₁.setStage p (.oops (s₁.stage p)), ?_, stopped_setStage _⟩
        have hgone₁ : s₁.modules.loaded hd'.owner = none := by
          rw [hmodules, howner, hgone]
        rw [List.replicate_succ, Transition.run, hstep, Option.bind_some, List.replicate_one,
          Transition.run, step_gone hK hgone₁ (.inr (.inr ⟨value, c, hstage₁⟩))]
        rfl

end Steps

section Runs

variable (K : Symbols W) (V : Services W ι C E) [DecidableEq ι] (table : Word W) {k₀ : Kernel W}
variable {e₀ : E} {s : System W ι E}

theorem running_of_reachableBy (hK : K.Placed fun n => k₀.mem (entry table n))
    (hprot : k₀.cr0.getLsbD 16 = true)
    (hs : Transition.ReachableBy (Harmless K V) (systemNext K V table) (systemStart k₀ e₀) s) :
    s.Running K :=
  hs.invariant ⟨fun _ _ hcode => hcode.elim, fun _ => not_false⟩ fun _ _ _ ha he h hstep =>
    h.next (sound_of_reachable K V table hK hprot ha) hK hprot he hstep

/-- As long as no module is unloaded under a process in its code, and `openclose` is
asked for files with paths that can be read, no process is stopped, whatever else
happens in whatever order. And either of the two can stop a process: it needs only
go on. -/
theorem stopped_of_reachableBy (hK : K.Placed fun n => k₀.mem (entry table n))
    (hprot : k₀.cr0.getLsbD 16 = true)
    (hs : Transition.ReachableBy (Harmless K V) (systemNext K V table) (systemStart k₀ e₀) s) :
    (∀ p, ¬ (s.stage p).Stopped) ∧
      ∀ e s', systemNext K V table e s = some s' → ¬ Harmless K V e s →
        ∃ p n s'', Transition.run (systemNext K V table) (List.replicate n (.step p)) s' =
          some s'' ∧ (s''.stage p).Stopped := by
  have hrunning := running_of_reachableBy K V table hK hprot hs
  have hsound := sound_of_reachable K V table hK hprot hs.reachable
  refine ⟨hrunning.going, fun e s' hstep hharm => ?_⟩
  have hsound' := hsound.next hK hprot hstep
  cases e with
  | manage e =>
      obtain ⟨st, hst, rfl⟩ := Option.map_eq_some_iff.mp hstep
      cases e with
      | load m found => exact absurd trivial hharm
      | unload m =>
          obtain ⟨p, hcode⟩ := not_forall_not.mp hharm
          refine ⟨p, stops_of_inCode hsound' hK hcode ?_⟩
          exact (congrFun (loaded_of_unload hst) m).trans (Function.update_self ..)
  | call p c => exact absurd trivial hharm
  | step p =>
      simp only [Harmless, not_forall, ne_eq, not_not] at hharm
      obtain ⟨c, hstage, huid, hpath⟩ := hharm
      refine ⟨p, 0, s', rfl, ?_⟩
      have hloaded : s.modules.loaded .openclose ≠ none :=
        hrunning.loaded p .openclose (by rw [hstage]; exact .inl ⟨.newOpen, rfl, rfl⟩)
      have hlines : V.lines .newOpen p c s.env = none :=
        Services.lines_eq_none.mpr ⟨rfl, huid, hpath⟩
      simp only [systemNext, hstage, Option.some.injEq] at hstep
      have hrun : s.runFunction K V p K.newOpen [] c = _ :=
        runFunction_openclose (h := .newOpen) hK rfl hloaded
      rw [hlines] at hrun
      rw [← hstep]
      exact hrun ▸ stopped_setStage _

end Runs

section Example

/-- A process is in the handler of `openclose`, and no process has stopped. -/
theorem stopped_open :
    ∃ s : System .w32 Bool ℕ, (s.stage true).InCode linux32 .openclose ∧
      (∀ p, ¬ (s.stage p).Stopped) ∧
      ∀ e s', systemNext linux32 counting 0xC0200000 e s = some s' →
        ¬ Harmless linux32 counting e s → ∃ p n s'',
          Transition.run (systemNext linux32 counting 0xC0200000)
            (List.replicate n (.step p)) s' = some s'' ∧ (s''.stage p).Stopped := by
  obtain ⟨s, hcode, hs⟩ : ∃ s : System .w32 Bool ℕ, (s.stage true).InCode linux32 .openclose ∧
      Transition.ReachableBy (Harmless linux32 counting)
        (systemNext linux32 counting 0xC0200000) (systemStart tableKernel 0) s := by
    refine ⟨_, ?_, Transition.ReachableBy.of_run
      [.manage (.load .openclose true), .call true openCall] Relation.ReflTransGen.refl
      (fun t ht a => ?_) rfl⟩
    · exact .inl ⟨.newOpen, rfl, rfl⟩
    · obtain rfl | rfl := List.mem_pair.mp ht <;> exact trivial
  exact ⟨s, hcode,
    stopped_of_reachableBy linux32 counting 0xC0200000 placed_tableKernel (by decide) hs⟩

end Example

end Interceptor

end OperatingSystems
