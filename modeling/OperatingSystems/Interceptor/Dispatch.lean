import OperatingSystems.Interceptor.Calls

/-!
# Who answers a system call

Seen from outside there is no table and no saved function. A system call is
answered by the module that is loaded when the call is made and has a handler
for its number, and by the kernel otherwise; for `openclose` that means a line
in the log before the kernel answers. The machine with the table, whose handlers
go through pointers that other loads and unloads have written, behaves in the
same way: it writes the same lines, returns the same values and leaves the rest
of the kernel in the same states.
-/

namespace OperatingSystems

namespace Interceptor

open OperatingSystems

variable {W : WordSize} {ι C E : Type*}

/-- Where a system call is, seen from outside. -/
inductive Phase (W : WordSize)
  | user
  /-- The call is to be answered by the handler of a module, or by the kernel. -/
  | asked (handler : Option Handler) (c : Call W)
  | answered (value : ℤ) (c : Call W)

/-- What can be seen of the machine. -/
structure Outside (W : WordSize) (ι E : Type*) where
  loaded : KernelModule → Bool
  env : E
  phase : ι → Phase W
  log : List (List UInt8)
  results : List (ι × Call W × ℤ)

def Stage.phase (K : Symbols W) : Stage W → Phase W
  | .user => .user
  | .calls a _ c => .asked (K.handlerAt a) c
  | .logged _ _ c => .asked none c
  | .returns value _ c => .answered value c
  | .oops before => before.phase K

def System.outside (K : Symbols W) (s : System W ι E) : Outside W ι E where
  loaded := fun m => (s.modules.loaded m).isSome
  env := s.env
  phase := fun p => (s.stage p).phase K
  log := s.log
  results := s.results

/-- The handler for a number, with the modules that are loaded. -/
def Symbols.answering (K : Symbols W) (loaded : KernelModule → Bool) (n : ℕ) : Option Handler :=
  Handler.all.find? fun h => K.slot h = n ∧ loaded h.owner = true

section Machine

variable (K : Symbols W) (V : Services W ι C E) (original : ℕ → Word W) [DecidableEq ι]

namespace Outside

variable (s : Outside W ι E) (p : ι)

def setPhase (phase : Phase W) : Outside W ι E :=
  { s with phase := Function.update s.phase p phase }

/-- The call of a process is answered, or goes on to the kernel after a line in the log. -/
def answer (c : Call W) : Option Handler → Option (Outside W ι E)
  | none =>
    let r := V.handle (original c.number) p c s.env
    some ({ s with env := r.2.2, log := s.log ++ r.2.1 }.setPhase p (.answered r.1 c))
  | some .newSyscall1 =>
    some ({ s with log := s.log ++ [goodbyeLine] }.setPhase p (.answered 0 c))
  | some .newSyscall2 =>
    let r := V.processInfo p c s.env
    some ({ s with env := r.2 }.setPhase p (.answered r.1 c))
  | some h => (V.lines h p c s.env).map fun lines =>
    { s with log := s.log ++ lines }.setPhase p (.asked none c)

end Outside

def outsideNext (table : Word W) : SystemEvent W ι → Outside W ι E → Option (Outside W ι E)
  | .manage (.load m found), s =>
    if s.loaded m then none
    else if found = true ∧ table ≠ 0 then
      some { s with loaded := Function.update s.loaded m true
                    log := s.log ++ [foundLine table, loadedLine] }
    else some { s with log := s.log ++ [foundLine (0 : Word W)] }
  | .manage (.unload m), s =>
    if s.loaded m then
      some { s with loaded := Function.update s.loaded m false, log := s.log ++ [unloadedLine] }
    else none
  | .call p c, s =>
    match s.phase p with
    | .user => some (s.setPhase p (.asked (K.answering s.loaded c.number) c))
    | _ => none
  | .step p, s =>
    match s.phase p with
    | .user => none
    | .asked handler c => s.answer V original p c handler
    | .answered value c =>
      some ({ s with results := s.results ++ [(p, c, value)] }.setPhase p .user)

def outsideStart (e₀ : E) : Outside W ι E where
  loaded := fun _ => false
  env := e₀
  phase := fun _ => .user
  log := []
  results := []

end Machine

/-- The handlers are different functions, and none of them is in the table before
the modules are loaded. -/
structure Symbols.Placed (K : Symbols W) (original : ℕ → Word W) : Prop where
  handlers_nodup : [K.newOpen, K.newClose, K.newSyscall1, K.newSyscall2].Nodup
  original_ne : ∀ n, n * W.bytes < 2 ^ W.bits → ∀ h, original n ≠ K.address h

theorem Handler.mem_all (h : Handler) : h ∈ Handler.all := by
  cases h <;> decide

theorem Handler.find?_all {q : Handler → Bool} {h : Handler} (hq : q h = true)
    (huniq : ∀ h', q h' = true → h' = h) : Handler.all.find? q = some h := by
  obtain ⟨h', hh'⟩ := Option.isSome_iff_exists.mp
    (List.find?_isSome.mpr ⟨h, Handler.mem_all h, hq⟩)
  rw [hh', huniq h' (List.find?_some hh')]

namespace Symbols

variable {K : Symbols W} {original : ℕ → Word W}

theorem handlerAt_eq_none {a : Word W} (h : ∀ h, a ≠ K.address h) : K.handlerAt a = none :=
  List.find?_eq_none.mpr fun h' _ heq => h h' (of_decide_eq_true heq).symm

theorem Placed.address_injective (hK : K.Placed original) {h h' : Handler}
    (heq : K.address h = K.address h') : h = h' := by
  have hnodup := hK.handlers_nodup
  cases h <;> cases h' <;> first | rfl | (simp only [address] at heq; grind)

theorem Placed.handlerAt_address (hK : K.Placed original) (h : Handler) :
    K.handlerAt (K.address h) = some h :=
  Handler.find?_all (decide_eq_true rfl) fun _ heq =>
    hK.address_injective (of_decide_eq_true heq)

theorem Placed.handlerAt_original (hK : K.Placed original) (c : Call W) :
    K.handlerAt (original c.number) = none :=
  handlerAt_eq_none (hK.original_ne c.number c.number_fits)

theorem slot_injective (K : Symbols W) {h h' : Handler} (heq : K.slot h = K.slot h') : h = h' := by
  have hnodup := K.numbers_nodup
  cases h <;> cases h' <;> first | rfl | (simp only [slot] at heq; grind)

theorem mem_hooks (K : Symbols W) (h : Handler) :
    (K.slot h, K.address h) ∈ K.hooks h.owner := by
  cases h <;> simp [hooks, slot, address, Handler.owner]

theorem mem_slots (K : Symbols W) {m : KernelModule} {n : ℕ} :
    n ∈ K.slots m ↔ ∃ h : Handler, h.owner = m ∧ K.slot h = n := by
  constructor
  · intro hn
    cases m with
    | openclose =>
        rcases List.mem_cons.mp hn with rfl | hn
        · exact ⟨.newOpen, rfl, rfl⟩
        · exact ⟨.newClose, rfl, (List.mem_singleton.mp hn).symm⟩
    | intercept => exact ⟨.newSyscall2, rfl, (List.mem_singleton.mp hn).symm⟩
    | module => exact ⟨.newSyscall1, rfl, (List.mem_singleton.mp hn).symm⟩
  · rintro ⟨h, rfl, rfl⟩
    exact List.mem_map_of_mem (K.mem_hooks h)

theorem answering_eq_some (K : Symbols W) {loaded : KernelModule → Bool} {n : ℕ} {h : Handler} :
    K.answering loaded n = some h ↔ K.slot h = n ∧ loaded h.owner = true := by
  constructor
  · intro hfind
    unfold answering at hfind
    simpa using List.find?_some hfind
  · rintro ⟨rfl, hloaded⟩
    exact Handler.find?_all (decide_eq_true ⟨rfl, hloaded⟩) fun _ heq =>
      K.slot_injective (of_decide_eq_true heq).1

theorem answering_eq_none (K : Symbols W) {loaded : KernelModule → Bool} {n : ℕ} :
    K.answering loaded n = none ↔ ∀ h, K.slot h = n → loaded h.owner = false := by
  rw [Option.eq_none_iff_forall_ne_some]
  simp only [ne_eq, answering_eq_some, not_and, Bool.not_eq_true]

end Symbols

/-- The stages of a system call when the table has never been anything but what
the modules make of it. -/
inductive Stage.Sane (K : Symbols W) (original : ℕ → Word W) : Stage W → Prop
  | user : Sane K original .user
  | kernel (c : Call W) : Sane K original (.calls (original c.number) [] c)
  | handler (h : Handler) (c : Call W) (hslot : K.slot h = c.number) :
      Sane K original (.calls (K.address h) [] c)
  | logged (h : Handler) (c : Call W) (howner : h.owner = .openclose)
      (hslot : K.slot h = c.number) : Sane K original (.logged h [] c)
  | saved (h : Handler) (c : Call W) (howner : h.owner = .openclose) :
      Sane K original (.calls (original c.number) [h] c)
  | back (value : ℤ) (h : Handler) (c : Call W) (howner : h.owner = .openclose) :
      Sane K original (.returns value [h] c)
  | answered (value : ℤ) (c : Call W) : Sane K original (.returns value [] c)
  | oops (before : Stage W) (hbefore : Sane K original before) :
      Sane K original (.oops before)

/-- What a process at a sane stage can do. -/
inductive ProcessMove (K : Symbols W) (V : Services W ι C E) (original : ℕ → Word W)
    [DecidableEq ι] (s : System W ι E) (p : ι) : System W ι E → Prop
  | kernel (callers : List Handler) (c : Call W)
      (hstage : s.stage p = .calls (original c.number) callers c)
      (hcallers : ∀ h ∈ callers, callers = [h] ∧ h.owner = .openclose) :
      ProcessMove K V original s p
        ({ s with env := (V.handle (original c.number) p c s.env).2.2,
                  log := s.log ++ (V.handle (original c.number) p c s.env).2.1 }.setStage p
          (.returns (V.handle (original c.number) p c s.env).1 callers c))
  | line (h : Handler) (c : Call W) (lines : List (List UInt8))
      (hstage : s.stage p = .calls (K.address h) [] c) (howner : h.owner = .openclose)
      (hslot : K.slot h = c.number) (hloaded : s.modules.loaded h.owner ≠ none)
      (hlines : V.lines h p c s.env = some lines) :
      ProcessMove K V original s p
        ({ s with log := s.log ++ lines }.setStage p (.logged h [] c))
  | goodbye (c : Call W) (hstage : s.stage p = .calls K.newSyscall1 [] c)
      (hslot : K.nrSyscall1 = c.number) (hloaded : s.modules.loaded .module ≠ none) :
      ProcessMove K V original s p
        ({ s with log := s.log ++ [goodbyeLine] }.setStage p (.returns 0 [] c))
  | info (c : Call W) (hstage : s.stage p = .calls K.newSyscall2 [] c)
      (hslot : K.nrSyscall2 = c.number) (hloaded : s.modules.loaded .intercept ≠ none) :
      ProcessMove K V original s p
        ({ s with env := (V.processInfo p c s.env).2 }.setStage p
          (.returns (V.processInfo p c s.env).1 [] c))
  | saved (h : Handler) (c : Call W) (hstage : s.stage p = .logged h [] c)
      (howner : h.owner = .openclose) (hloaded : s.modules.loaded h.owner ≠ none) :
      ProcessMove K V original s p (s.setStage p (.calls (original c.number) [h] c))
  | back (value : ℤ) (h : Handler) (c : Call W) (hstage : s.stage p = .returns value [h] c)
      (howner : h.owner = .openclose) (hloaded : s.modules.loaded h.owner ≠ none) :
      ProcessMove K V original s p (s.setStage p (.returns value [] c))
  | answered (value : ℤ) (c : Call W) (hstage : s.stage p = .returns value [] c) :
      ProcessMove K V original s p
        ({ s with results := s.results ++ [(p, c, value)] }.setStage p .user)
  | gone (h : Handler) (hgone : s.modules.loaded h.owner = none)
      (hnext : (∃ c, s.stage p = .calls (K.address h) [] c) ∨
        (∃ c, s.stage p = .logged h [] c) ∨ ∃ value c, s.stage p = .returns value [h] c) :
      ProcessMove K V original s p (s.setStage p (.oops (s.stage p)))
  | unreadable (c : Call W) (hstage : s.stage p = .calls K.newOpen [] c)
      (huid : 1000 ≤ (V.currentUid p s.env).toNat) (hpath : V.userString p c.arg1 s.env = none) :
      ProcessMove K V original s p (s.setStage p (.oops (s.stage p)))

section Steps

variable {K : Symbols W} {V : Services W ι C E} {original : ℕ → Word W} [DecidableEq ι]
variable {s s' : System W ι E} {p : ι}

/-- A module has saved the function that was in the entry of each of its handlers. -/
theorem Consistent.lookup_refs {table : Word W} {k₀ : Kernel W} {st : State W} {d : Data W}
    (h : Consistent K table k₀ st) {hd : Handler} (hloaded : st.loaded hd.owner = some d) :
    d.refs.lookup (K.slot hd) = some (k₀.mem (entry table (K.slot hd))) := by
  obtain ⟨-, rfl⟩ := h.data _ _ hloaded
  have hmem : K.slot hd ∈ K.slots hd.owner := K.mem_slots.mpr ⟨hd, rfl, rfl⟩
  generalize K.slots hd.owner = l at hmem
  induction l with
  | nil => cases hmem
  | cons n l ih =>
      rw [List.map_cons, List.lookup_cons]
      by_cases hn : K.slot hd = n
      · rw [hn, beq_self_eq_true]
      · rw [beq_eq_false_iff_ne.mpr hn]
        exact ih ((List.mem_cons.mp hmem).resolve_left hn)

section Functions

variable {callers : List Handler} {c : Call W}

theorem runFunction_kernel {a : Word W} (ha : K.handlerAt a = none) :
    s.runFunction K V p a callers c =
      { s with env := (V.handle a p c s.env).2.2,
               log := s.log ++ (V.handle a p c s.env).2.1 }.setStage p
        (.returns (V.handle a p c s.env).1 callers c) := by
  rw [System.runFunction, ha]

/-- A handler of a module that is not loaded. -/
theorem runFunction_gone (hK : K.Placed original) {h : Handler}
    (hgone : s.modules.loaded h.owner = none) :
    s.runFunction K V p (K.address h) callers c =
      s.setStage p (.oops (.calls (K.address h) callers c)) := by
  simp only [System.runFunction, hK.handlerAt_address, if_pos hgone]

theorem runFunction_openclose (hK : K.Placed original) {h : Handler}
    (howner : h.owner = .openclose) (hloaded : s.modules.loaded h.owner ≠ none) :
    s.runFunction K V p (K.address h) callers c =
      match V.lines h p c s.env with
      | none => s.setStage p (.oops (.calls (K.address h) callers c))
      | some lines => { s with log := s.log ++ lines }.setStage p (.logged h callers c) := by
  simp only [System.runFunction, hK.handlerAt_address, if_neg hloaded]
  cases h with
  | newOpen => rfl
  | newClose => rfl
  | newSyscall1 => cases howner
  | newSyscall2 => cases howner

omit [DecidableEq ι] in
theorem Services.lines_eq_none {h : Handler} {e : E} :
    V.lines h p c e = none ↔
      h = .newOpen ∧ 1000 ≤ (V.currentUid p e).toNat ∧ V.userString p c.arg1 e = none := by
  unfold Services.lines
  by_cases huid : 1000 ≤ (V.currentUid p e).toNat
  · rw [if_pos huid]
    cases h <;> simp [huid]
  · rw [if_neg huid]
    simp [huid]

end Functions

/-- Every step of a process at a sane stage is one of the moves. -/
theorem processMove_of_step {table : Word W} {k₀ : Kernel W}
    (hK : K.Placed fun n => k₀.mem (entry table n)) (hcons : Consistent K table k₀ s.modules)
    (hsane : (s.stage p).Sane K fun n => k₀.mem (entry table n))
    (hs : systemNext K V table (.step p) s = some s') :
    ProcessMove K V (fun n => k₀.mem (entry table n)) s p s' := by
  generalize hstage : s.stage p = stage at hsane
  simp only [systemNext, hstage] at hs
  cases hsane with
  | user => cases hs
  | oops before _ => cases hs
  | kernel c =>
      rw [← Option.some.inj hs, runFunction_kernel (hK.handlerAt_original c)]
      exact .kernel [] c hstage fun _ h => absurd h List.not_mem_nil
  | saved h c howner =>
      rw [← Option.some.inj hs, runFunction_kernel (hK.handlerAt_original c)]
      refine .kernel [h] c hstage fun _ hmem => ?_
      obtain rfl := List.mem_singleton.mp hmem
      exact ⟨rfl, howner⟩
  | answered value c =>
      rw [← Option.some.inj hs]
      exact .answered value c hstage
  | back value h c howner =>
      rw [← Option.some.inj hs]
      by_cases hgone : s.modules.loaded h.owner = none
      · rw [System.runReturn, if_pos hgone, ← hstage]
        exact .gone h hgone (.inr (.inr ⟨value, c, hstage⟩))
      · rw [System.runReturn, if_neg hgone]
        exact .back value h c hstage howner hgone
  | logged h c howner hslot =>
      rw [← Option.some.inj hs]
      cases hloaded : s.modules.loaded h.owner with
      | none =>
          simp only [System.runSaved, hloaded]
          rw [← hstage]
          exact .gone h hloaded (.inr (.inl ⟨c, hstage⟩))
      | some d =>
          have hlookup := hcons.lookup_refs hloaded
          rw [hslot] at hlookup
          simp only [System.runSaved, hloaded, hslot, hlookup, Option.getD_some]
          exact .saved h c hstage howner (hloaded ▸ Option.some_ne_none d)
  | handler h c hslot =>
      rw [← Option.some.inj hs]
      by_cases hgone : s.modules.loaded h.owner = none
      · rw [runFunction_gone hK hgone, ← hstage]
        exact .gone h hgone (.inl ⟨c, hstage⟩)
      · by_cases howner : h.owner = .openclose
        · rw [runFunction_openclose hK howner hgone]
          cases hlines : V.lines h p c s.env with
          | some lines => exact .line h c lines hstage howner hslot hgone hlines
          | none =>
              obtain ⟨rfl, huid, hpath⟩ := Services.lines_eq_none.mp hlines
              dsimp only
              rw [← hstage]
              exact .unreadable c hstage huid hpath
        · simp only [System.runFunction, hK.handlerAt_address, if_neg hgone]
          cases h with
          | newOpen => exact absurd rfl howner
          | newClose => exact absurd rfl howner
          | newSyscall1 => exact .goodbye c hstage hslot hgone
          | newSyscall2 => exact .info c hstage hslot hgone

/-- What the table holds at a number, and who answers it. -/
theorem Consistent.table_cases {table : Word W} {k₀ : Kernel W} {st : State W}
    (h : Consistent K table k₀ st) (hprot : k₀.cr0.getLsbD 16 = true) {n : ℕ}
    (hn : n * W.bytes < 2 ^ W.bits) :
    (st.kernel.mem (entry table n) = k₀.mem (entry table n) ∧
        K.answering (fun m => (st.loaded m).isSome) n = none) ∨
      ∃ hd, K.slot hd = n ∧ st.kernel.mem (entry table n) = K.address hd ∧
        K.answering (fun m => (st.loaded m).isSome) n = some hd := by
  have hintact := h.intact hprot
  by_cases hex : ∃ hd, K.slot hd = n ∧ (st.loaded hd.owner).isSome = true
  · obtain ⟨hd, rfl, hloaded⟩ := hex
    refine .inr ⟨hd, rfl, ?_, K.answering_eq_some.mpr ⟨rfl, hloaded⟩⟩
    exact hintact.owned _ (Option.isSome_iff_ne_none.mp hloaded) _ (K.mem_hooks hd)
  · refine .inl ⟨hintact.unowned n hn fun m hm hmem => ?_, ?_⟩
    · obtain ⟨hd, rfl, hslot⟩ := K.mem_slots.mp hmem
      exact hex ⟨hd, hslot, Option.isSome_iff_ne_none.mpr hm⟩
    · exact K.answering_eq_none.mpr fun hd hslot =>
        Bool.eq_false_iff.mpr fun hloaded => hex ⟨hd, hslot, hloaded⟩

/-- What every event preserves. -/
structure System.Sound (K : Symbols W) (table : Word W) (k₀ : Kernel W) (s : System W ι E) :
    Prop where
  modules : Consistent K table k₀ s.modules
  sane : ∀ p, (s.stage p).Sane K fun n => k₀.mem (entry table n)

theorem System.Sound.setStage {table : Word W} {k₀ : Kernel W} (h : s.Sound K table k₀)
    {stage : Stage W} (hstage : stage.Sane K fun n => k₀.mem (entry table n)) :
    (s.setStage p stage).Sound K table k₀ where
  modules := h.modules
  sane := fun q => by
    by_cases hq : q = p
    · subst hq
      simpa only [System.setStage, Function.update_self] using hstage
    · simpa only [System.setStage, Function.update_of_ne hq] using h.sane q

/-- What a process does leaves the modules alone and leads to a sane stage. -/
theorem ProcessMove.sound {table : Word W} {k₀ : Kernel W} (h : s.Sound K table k₀)
    (hmove : ProcessMove K V (fun n => k₀.mem (entry table n)) s p s') :
    s'.Sound K table k₀ := by
  have hfields : ∀ (e : E) (log : List (List UInt8)) (results : List (ι × Call W × ℤ)),
      ({ s with env := e, log := log, results := results } : System W ι E).Sound K table k₀ :=
    fun _ _ _ => ⟨h.modules, h.sane⟩
  cases hmove with
  | kernel callers c _ hcallers =>
      refine (hfields _ _ s.results).setStage ?_
      cases callers with
      | nil => exact .answered _ c
      | cons hd l =>
          obtain ⟨heq, howner⟩ := hcallers hd List.mem_cons_self
          exact heq ▸ .back _ hd c howner
  | line hd c lines _ howner hslot =>
      exact (hfields s.env _ s.results).setStage (.logged hd c howner hslot)
  | goodbye c => exact (hfields s.env _ s.results).setStage (.answered 0 c)
  | info c => exact (hfields _ s.log s.results).setStage (.answered _ c)
  | saved hd c _ howner => exact h.setStage (.saved hd c howner)
  | back value hd c => exact h.setStage (.answered value c)
  | answered value c => exact (hfields s.env s.log _).setStage .user
  | gone => exact h.setStage (.oops _ (h.sane p))
  | unreadable => exact h.setStage (.oops _ (h.sane p))

/-- One event. -/
theorem System.Sound.next {table : Word W} {k₀ : Kernel W} (h : s.Sound K table k₀)
    (hK : K.Placed fun n => k₀.mem (entry table n)) (hprot : k₀.cr0.getLsbD 16 = true)
    {e : SystemEvent W ι} (hs : systemNext K V table e s = some s') : s'.Sound K table k₀ := by
  cases e with
  | manage e =>
      obtain ⟨modules, hmodules, rfl⟩ := Option.map_eq_some_iff.mp hs
      exact ⟨h.modules.next hprot hmodules, h.sane⟩
  | call p c =>
      simp only [systemNext] at hs
      split at hs
      · rw [← Option.some.inj hs]
        refine h.setStage ?_
        rcases h.modules.table_cases hprot c.number_fits with ⟨heq, -⟩ | ⟨hd, hslot, heq, -⟩
        · rw [heq]
          exact .kernel c
        · rw [heq]
          exact .handler hd c hslot
      · cases hs
  | step p => exact (processMove_of_step hK h.modules (h.sane p) hs).sound h

end Steps

section Refinement

variable {K : Symbols W} {V : Services W ι C E} {original : ℕ → Word W} [DecidableEq ι]
variable {s s' : System W ι E} {p : ι} {table : Word W} {k₀ : Kernel W}

omit [DecidableEq ι] in
theorem phase_outside (K : Symbols W) (s : System W ι E) (p : ι) :
    (s.outside K).phase p = (s.stage p).phase K := rfl

theorem outside_setStage (stage : Stage W) :
    (s.setStage p stage).outside K = (s.outside K).setPhase p (stage.phase K) :=
  congrArg (fun phase => ({ s.outside K with phase := phase } : Outside W ι E))
    (Function.comp_update (Stage.phase K) s.stage p stage)

/-- A stage that looks the same from outside. -/
theorem outside_setStage_self {stage : Stage W} (h : stage.phase K = (s.stage p).phase K) :
    (s.setStage p stage).outside K = s.outside K := by
  rw [outside_setStage, h]
  exact congrArg (fun phase => ({ s.outside K with phase := phase } : Outside W ι E))
    (Function.update_eq_self p _)

/-- What a process does is a step of it, or cannot be seen from outside. -/
theorem ProcessMove.outside (hK : K.Placed original) (hmove : ProcessMove K V original s p s') :
    s'.outside K = s.outside K ∨
      outsideNext K V original table (.step p) (s.outside K) = some (s'.outside K) := by
  cases hmove with
  | kernel callers c hstage =>
      refine .inr ?_
      have hphase : (s.outside K).phase p = .asked none c := by
        rw [phase_outside, hstage, Stage.phase, hK.handlerAt_original]
      simp only [outsideNext, hphase, Outside.answer, outside_setStage]
      rfl
  | line h c lines hstage howner _ _ hlines =>
      refine .inr ?_
      have hphase : (s.outside K).phase p = .asked (some h) c := by
        rw [phase_outside, hstage, Stage.phase, hK.handlerAt_address]
      simp only [outsideNext, hphase, outside_setStage]
      cases h with
      | newOpen => exact Option.map_eq_some_iff.mpr ⟨lines, hlines, rfl⟩
      | newClose => exact Option.map_eq_some_iff.mpr ⟨lines, hlines, rfl⟩
      | newSyscall1 => cases howner
      | newSyscall2 => cases howner
  | goodbye c hstage =>
      refine .inr ?_
      have hphase : (s.outside K).phase p = .asked (some .newSyscall1) c := by
        rw [phase_outside, hstage, Stage.phase]
        exact congrArg (fun h => Phase.asked h c) (hK.handlerAt_address .newSyscall1)
      simp only [outsideNext, hphase, outside_setStage]
      rfl
  | info c hstage =>
      refine .inr ?_
      have hphase : (s.outside K).phase p = .asked (some .newSyscall2) c := by
        rw [phase_outside, hstage, Stage.phase]
        exact congrArg (fun h => Phase.asked h c) (hK.handlerAt_address .newSyscall2)
      simp only [outsideNext, hphase, outside_setStage]
      rfl
  | saved h c hstage =>
      refine .inl (outside_setStage_self ?_)
      rw [hstage, Stage.phase, Stage.phase, hK.handlerAt_original]
  | back value h c hstage =>
      refine .inl (outside_setStage_self ?_)
      rw [hstage, Stage.phase, Stage.phase]
  | answered value c hstage =>
      refine .inr ?_
      have hphase : (s.outside K).phase p = .answered value c := by
        rw [phase_outside, hstage, Stage.phase]
      simp only [outsideNext, hphase, outside_setStage]
      rfl
  | gone => exact .inl (outside_setStage_self rfl)
  | unreadable => exact .inl (outside_setStage_self rfl)

omit [DecidableEq ι] in
/-- The modules in the kernel after one of them has come or gone. -/
theorem outside_update {kernel : Kernel W} {m : KernelModule} {o : Option (Data W)}
    {log : List (List UInt8)} :
    ({ s with modules := ⟨kernel, Function.update s.modules.loaded m o⟩, log := log } :
        System W ι E).outside K =
      { s.outside K with loaded := Function.update (s.outside K).loaded m o.isSome, log := log } :=
  congrArg (fun loaded => ({ s.outside K with loaded := loaded, log := log } : Outside W ι E))
    (Function.comp_update Option.isSome s.modules.loaded m o)

theorem outside_load {m : KernelModule} {found : Bool} {st : State W}
    (hmodules : next K table (.load m found) s.modules = some st) :
    outsideNext K V original table (.manage (.load m found)) (s.outside K) =
      some (System.outside K
        { s with modules := st, log := s.log ++ Event.lines table s.modules (.load m found) }) := by
  cases hm : s.modules.loaded m with
  | some d => simp [next, hm] at hmodules
  | none =>
      have hloaded : (s.outside K).loaded m = false := congrArg Option.isSome hm
      simp only [next, hm, Option.some.injEq] at hmodules
      simp only [outsideNext, hloaded, Bool.false_eq_true, if_false]
      by_cases hfound : found = true ∧ table ≠ 0
      · obtain ⟨rfl, htable⟩ := hfound
        rw [if_pos rfl, if_pos (interceptorStart_code htable)] at hmodules
        rw [if_pos ⟨rfl, htable⟩, ← hmodules, outside_update]
        simp only [Event.lines, if_true, if_neg htable]
        rfl
      · have hzero : (if found = true then table else 0) = 0 := by
          by_cases htrue : found = true
          · rw [if_pos htrue]
            exact not_not.mp fun hne => hfound ⟨htrue, hne⟩
          · exact if_neg htrue
        rw [hzero, interceptorStart_zero] at hmodules
        rw [if_neg hfound, ← hmodules]
        simp only [Event.lines, hzero, if_true]
        rfl

theorem outside_unload {m : KernelModule} {st : State W}
    (hcons : Consistent K table k₀ s.modules)
    (hmodules : next K table (.unload m) s.modules = some st) :
    outsideNext K V original table (.manage (.unload m)) (s.outside K) =
      some (System.outside K
        { s with modules := st, log := s.log ++ Event.lines table s.modules (.unload m) }) := by
  cases hm : s.modules.loaded m with
  | none => simp [next, hm] at hmodules
  | some d =>
      have hloaded : (s.outside K).loaded m = true := congrArg Option.isSome hm
      obtain ⟨htable, hd⟩ := hcons.data m d hm
      have hcall : d.sysCallTable ≠ 0 := by
        rw [hd]
        exact htable
      simp only [next, hm, Option.some.injEq] at hmodules
      rw [← hmodules, outside_update]
      simp only [outsideNext, hloaded, if_true, Event.lines, hm, if_neg hcall]
      rfl

theorem outside_call {c : Call W} (hcons : Consistent K table k₀ s.modules)
    (hK : K.Placed fun n => k₀.mem (entry table n)) (hprot : k₀.cr0.getLsbD 16 = true)
    (hs : systemNext K V table (.call p c) s = some s') :
    outsideNext K V original table (.call p c) (s.outside K) = some (s'.outside K) := by
  simp only [systemNext] at hs
  split at hs
  case h_2 => cases hs
  case h_1 hstage =>
    have hphase : (s.outside K).phase p = .user := by
      rw [phase_outside, hstage, Stage.phase]
    have hanswer : K.handlerAt (s.modules.kernel.mem (entry table c.number)) =
        K.answering (s.outside K).loaded c.number := by
      rcases hcons.table_cases hprot c.number_fits with ⟨heq, hnone⟩ | ⟨hd, -, heq, hsome⟩
      · rw [heq, hK.handlerAt_original]
        exact hnone.symm
      · rw [heq, hK.handlerAt_address]
        exact hsome.symm
    rw [← Option.some.inj hs, outside_setStage, Stage.phase, hanswer]
    simp only [outsideNext, hphase]

/-- Every event is one that can be seen, or nothing. -/
theorem outside_of_next (h : s.Sound K table k₀)
    (hK : K.Placed fun n => k₀.mem (entry table n)) (hprot : k₀.cr0.getLsbD 16 = true)
    {e : SystemEvent W ι} (hs : systemNext K V table e s = some s') :
    s'.outside K = s.outside K ∨ outsideNext K V (fun n => k₀.mem (entry table n)) table e
      (s.outside K) = some (s'.outside K) := by
  cases e with
  | manage e =>
      obtain ⟨modules, hmodules, rfl⟩ := Option.map_eq_some_iff.mp hs
      cases e with
      | load m found => exact .inr (outside_load hmodules)
      | unload m => exact .inr (outside_unload h.modules hmodules)
  | call p c => exact .inr (outside_call h.modules hK hprot hs)
  | step p => exact (processMove_of_step hK h.modules (h.sane p) hs).outside hK

end Refinement

section Runs

variable (K : Symbols W) (V : Services W ι C E) [DecidableEq ι] (table : Word W) {k₀ : Kernel W}
variable {e₀ : E} {s : System W ι E}

theorem sound_of_reachable (hK : K.Placed fun n => k₀.mem (entry table n))
    (hprot : k₀.cr0.getLsbD 16 = true)
    (hs : Transition.Reachable (systemNext K V table) (systemStart k₀ e₀) s) :
    s.Sound K table k₀ :=
  hs.invariant ⟨Consistent.start K table k₀, fun _ => .user⟩ fun _ _ _ _ h => h.next hK hprot

/-- Whatever is loaded and unloaded while processes make system calls, in any
interleaving: the log, the values returned and the rest of the kernel are those of
a machine in which each call is answered by the handler that is loaded for its
number when it is made, or by the function that was in the table at first. -/
theorem outside_of_reachable (hK : K.Placed fun n => k₀.mem (entry table n))
    (hprot : k₀.cr0.getLsbD 16 = true)
    (hs : Transition.Reachable (systemNext K V table) (systemStart k₀ e₀) s) :
    Transition.Reachable (outsideNext K V (fun n => k₀.mem (entry table n)) table)
      (outsideStart e₀) (s.outside K) :=
  hs.simulate (System.outside K) fun e _ _ ha hstep =>
    (outside_of_next (sound_of_reachable K V table hK hprot ha) hK hprot hstep).imp id
      fun h => ⟨e, h⟩

end Runs

section Example

/-- A kernel that counts the calls it answers. The process `true` belongs to the
first ordinary user. -/
def counting : Services .w32 Bool ℕ ℕ where
  handle := fun _ _ _ e => (e, [], e + 1)
  currentUid := fun p _ => if p then 1000 else 0
  userString := fun _ a _ => if a = 0 then none else some (Output.ascii "/tmp")
  current := fun _ e => ⟨0, 42, 1, 200, 1000, e, 0, [], [], ⟨0, 0⟩, []⟩
  cputimeToUsecs := BitVec.ofNat 64
  copyToUser := fun _ a _ e => (if a = 0 then 72 else 0, e)

/-- A kernel with its table at `0xC0200000`: `sys_write`, `sys_open`, `sys_close` and
the three system calls of the preproject. -/
def tableKernel : Kernel .w32 where
  mem := fun a =>
    if a = entry (0xC0200000 : Word .w32) 4 then 0xC0100E00
    else if a = entry (0xC0200000 : Word .w32) 5 then 0xC0100F00
    else if a = entry (0xC0200000 : Word .w32) 6 then linux32.sysClose
    else if a = entry (0xC0200000 : Word .w32) 349 then 0xC0102000
    else if a = entry (0xC0200000 : Word .w32) 350 then 0xC0102020
    else if a = entry (0xC0200000 : Word .w32) 351 then 0xC0102040
    else 0
  cr0 := 0x80050033

theorem placed_tableKernel : linux32.Placed fun n => tableKernel.mem (entry 0xC0200000 n) where
  handlers_nodup := by decide
  original_ne := fun n _ h => by
    unfold tableKernel
    dsimp only
    split_ifs <;> cases h <;> decide

def openCall : Call .w32 := ⟨5, 0x8048000, 0, 0, by decide⟩

def syscall1Call : Call .w32 := ⟨349, 0, 0, 0, by decide⟩

/-- `openclose` is loaded after `module`, which answers a call and goes while a call of
`open` is in the handler of `openclose`. -/
theorem outside_open :
    ∃ s : System .w32 Bool ℕ, s.results = [(true, openCall, 0), (false, syscall1Call, 0)] ∧
      s.env = 1 ∧
      s.log = [foundLine (0xC0200000 : Word .w32), loadedLine,
        foundLine (0xC0200000 : Word .w32), loadedLine,
        openingLine 1000 (Output.ascii "/tmp"), goodbyeLine, unloadedLine] ∧
      Transition.Reachable (outsideNext linux32 counting
        (fun n => tableKernel.mem (entry 0xC0200000 n)) 0xC0200000) (outsideStart 0)
        (s.outside linux32) := by
  refine ⟨_, ?_, ?_, ?_, outside_of_reachable linux32 counting 0xC0200000 placed_tableKernel
    (by decide) (Transition.Reachable.of_run [.manage (.load .module true),
      .manage (.load .openclose true), .call true openCall, .call false syscall1Call,
      .step true, .step false, .manage (.unload .module), .step true, .step true, .step true,
      .step true, .step false] Relation.ReflTransGen.refl rfl)⟩ <;> rfl

end Example

end Interceptor

end OperatingSystems
