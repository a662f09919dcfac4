import OperatingSystems.Interceptor.Kernel
import OperatingSystems.Transition.Reachable

/-!
# Loading and unloading the modules

A module is loaded when it is not in the kernel and unloaded when it is. Its
search for the table finds it or ends at address 0, which is `NULL`, and a module
whose `interceptor_start` does not return 0 does not stay in the kernel.

The entries of the three modules are different ones. So the handlers that a
module saves are the original ones whatever is loaded at the time, and writing
them back is right whatever has been loaded and unloaded since: the table is
always the original one with the entries of the loaded modules replaced.
-/

namespace OperatingSystems

namespace Interceptor

open OperatingSystems

variable {W : WordSize}

/-- The machine, and the variables of the modules in the kernel. -/
structure State (W : WordSize) where
  kernel : Kernel W
  loaded : KernelModule → Option (Data W)

inductive Event
  /-- The module is loaded, and its search ends at the table or at address 0. -/
  | load (m : KernelModule) (found : Bool)
  | unload (m : KernelModule)

def next (K : Symbols W) (table : Word W) : Event → State W → Option (State W)
  | .load m found, s =>
    match s.loaded m with
    | some _ => none
    | none =>
      let r := interceptorStart K m (if found then table else 0) s.kernel
      some { kernel := r.2.2
             loaded := if r.1 = 0 then Function.update s.loaded m (some r.2.1) else s.loaded }
  | .unload m, s =>
    match s.loaded m with
    | none => none
    | some d => some { kernel := interceptorEnd d s.kernel
                       loaded := Function.update s.loaded m none }

/-- No module has been loaded yet. -/
def start (k : Kernel W) : State W where
  kernel := k
  loaded := fun _ => none

/-- The numbers of the entries that a module replaces. -/
def Symbols.slots (K : Symbols W) (m : KernelModule) : List ℕ :=
  (K.hooks m).map Prod.fst

/-- The table is intact: with the modules loaded in `s`, everything but their
entries is as it was in `k₀`, and so is what they have saved. -/
structure Intact (K : Symbols W) (table : Word W) (k₀ : Kernel W) (s : State W) : Prop where
  unowned : ∀ n, n * W.bytes < 2 ^ W.bits → (∀ m, s.loaded m ≠ none → n ∉ K.slots m) →
    s.kernel.mem (entry table n) = k₀.mem (entry table n)
  owned : ∀ m, s.loaded m ≠ none → ∀ h ∈ K.hooks m, s.kernel.mem (entry table h.1) = h.2
  saved : ∀ m d, s.loaded m = some d →
    d.refs = (K.slots m).map fun n => (n, k₀.mem (entry table n))
  protection : s.kernel.cr0.getLsbD 16 = true
  cr0 : s.kernel.cr0 = k₀.cr0
  unloaded : (∀ m, s.loaded m = none) → s.kernel.mem = k₀.mem

section Slots

variable (K : Symbols W)

theorem Symbols.slots_sublist (m : KernelModule) :
    (K.slots m).Sublist [K.nrOpen, K.nrClose, K.nrSyscall1, K.nrSyscall2] := by
  cases m with
  | openclose => exact List.sublist_append_left [K.nrOpen, K.nrClose] [K.nrSyscall1, K.nrSyscall2]
  | intercept => exact List.singleton_sublist.mpr (by simp)
  | module => exact List.singleton_sublist.mpr (by simp)

theorem Symbols.slots_nodup (m : KernelModule) : (K.slots m).Nodup :=
  (K.slots_sublist m).nodup K.numbers_nodup

theorem Symbols.slots_fit {m : KernelModule} {n : ℕ} (hn : n ∈ K.slots m) :
    n * W.bytes < 2 ^ W.bits :=
  K.numbers_fit n ((K.slots_sublist m).subset hn)

theorem Symbols.slots_disjoint {m m' : KernelModule} (hne : m ≠ m') :
    List.Disjoint (K.slots m) (K.slots m') := by
  have h := K.numbers_nodup
  intro n hn hn'
  cases m <;> cases m' <;> simp_all [Symbols.slots, Symbols.hooks] <;> grind

theorem keys_located (sct : Word W) (entries : List (ℕ × Word W)) :
    Patch.keys (located sct entries) = (entries.map Prod.fst).map (entry sct) := by
  simp only [Patch.keys, located, List.map_map]
  rfl

/-- The address of an entry belongs to a module just when its number does. -/
theorem entry_mem_keys (sct : Word W) {m : KernelModule} {n : ℕ}
    (hn : n * W.bytes < 2 ^ W.bits) :
    entry sct n ∈ Patch.keys (located sct (K.hooks m)) ↔ n ∈ K.slots m := by
  rw [keys_located]
  constructor
  · intro h
    obtain ⟨n', hn', heq⟩ := List.mem_map.mp h
    exact (entry_inj sct (K.slots_fit hn') hn).mp heq ▸ hn'
  · exact fun h => List.mem_map_of_mem h

/-- The patches that the three modules are for a table. -/
def Symbols.family (table : Word W) : Patch.Family KernelModule (Word W) (Word W) where
  patch := fun m => located table (K.hooks m)
  nodup := fun m => by
    rw [keys_located]
    refine List.Nodup.map_on (fun n hn n' hn' h => ?_) (K.slots_nodup m)
    exact (entry_inj table (K.slots_fit hn) (K.slots_fit hn')).mp h
  disjoint := fun m m' hne a ha ha' => by
    rw [keys_located] at ha
    obtain ⟨n, hn, rfl⟩ := List.mem_map.mp ha
    exact K.slots_disjoint hne hn ((entry_mem_keys K table (K.slots_fit hn)).mp ha')

end Slots

section Operations

variable {K : Symbols W} {m : KernelModule} {k : Kernel W}

/-- A failed search leaves the machine alone. -/
theorem interceptorStart_zero (K : Symbols W) (m : KernelModule) (k : Kernel W) :
    interceptorStart K m 0 k = (-1, K.zeroData m, k) := if_pos rfl

theorem interceptorStart_code {found : Word W} (h : found ≠ 0) :
    (interceptorStart K m found k).1 = 0 := by
  rw [interceptorStart, if_neg h]

theorem interceptorStart_data {found : Word W} (h : found ≠ 0) :
    (interceptorStart K m found k).2.1 =
      ⟨found, (K.slots m).map fun n => (n, k.mem (entry found n))⟩ := by
  rw [interceptorStart, if_neg h, Symbols.slots, List.map_map]
  rfl

theorem interceptorStart_mem {found : Word W} (h : found ≠ 0) :
    (interceptorStart K m found k).2.2.mem = Patch.apply (located found (K.hooks m)) k.mem := by
  rw [interceptorStart, if_neg h]
  exact mem_writeEntries _ _ _

theorem interceptorStart_cr0 (found : Word W) (hk : k.cr0.getLsbD 16 = true) :
    (interceptorStart K m found k).2.2.cr0 = k.cr0 := by
  by_cases h : found = 0
  · rw [interceptorStart, if_pos h]
  · rw [interceptorStart, if_neg h]
    exact enable_disable k found _ hk

theorem interceptorEnd_mem {d : Data W} (h : d.sysCallTable ≠ 0) :
    (interceptorEnd d k).mem = Patch.apply (located d.sysCallTable d.refs) k.mem := by
  rw [interceptorEnd, if_neg h]
  exact mem_writeEntries _ _ _

theorem interceptorEnd_cr0 (d : Data W) (hk : k.cr0.getLsbD 16 = true) :
    (interceptorEnd d k).cr0 = k.cr0 := by
  by_cases h : d.sysCallTable = 0
  · rw [interceptorEnd, if_pos h]
  · rw [interceptorEnd, if_neg h]
    exact enable_disable k _ _ hk

/-- The saved handlers, as the patch that undoes the module's own. -/
theorem located_saved (K : Symbols W) (m : KernelModule) (table : Word W) (mem : Memory W) :
    located table ((K.slots m).map fun n => (n, mem (entry table n))) =
      Patch.undo ((K.family table).patch m) mem := by
  simp only [located, Symbols.slots, Symbols.family, Patch.undo, List.map_map]
  rfl

end Operations

/-- What the loaded modules have saved, as patches of the memory. -/
def State.saved (table : Word W) (s : State W) (m : KernelModule) :
    Option (List (Word W × Word W)) :=
  (s.loaded m).map fun d => located table d.refs

theorem State.saved_ne_none {table : Word W} {s : State W} {m : KernelModule} :
    s.saved table m ≠ none ↔ s.loaded m ≠ none := by
  rw [State.saved, Ne, Option.map_eq_none_iff]

theorem State.saved_update (table : Word W) (k : Kernel W)
    (loaded : KernelModule → Option (Data W)) (m : KernelModule) (o : Option (Data W)) :
    State.saved table ⟨k, Function.update loaded m o⟩ =
      Function.update (State.saved table ⟨k, loaded⟩) m
        (o.map fun d => located table d.refs) := by
  funext l
  by_cases hl : l = m
  · subst hl
    simp only [State.saved, Function.update_self]
  · simp only [State.saved, Function.update_of_ne hl]

/-- What every load and unload preserves. -/
structure Consistent (K : Symbols W) (table : Word W) (k₀ : Kernel W) (s : State W) : Prop where
  cr0 : s.kernel.cr0 = k₀.cr0
  data : ∀ m d, s.loaded m = some d →
    table ≠ 0 ∧ d = ⟨table, (K.slots m).map fun n => (n, k₀.mem (entry table n))⟩
  patched : Patch.Patched (K.family table) k₀.mem (s.saved table) s.kernel.mem

namespace Consistent

variable {K : Symbols W} {table : Word W} {k₀ : Kernel W} {s : State W} {m : KernelModule}

theorem start (K : Symbols W) (table : Word W) (k₀ : Kernel W) :
    Consistent K table k₀ (start k₀) where
  cr0 := rfl
  data := fun _ _ h => absurd h (Option.some_ne_none _).symm
  patched := Patch.Patched.start _ _

/-- The handlers of a module that is not loaded are the original ones. -/
theorem original (h : Consistent K table k₀ s) (hm : s.loaded m = none) {n : ℕ}
    (hn : n ∈ K.slots m) : s.kernel.mem (entry table n) = k₀.mem (entry table n) := by
  refine h.patched.untouched _ fun l hl hmem => ?_
  have hln : n ∈ K.slots l := (entry_mem_keys K table (K.slots_fit hn)).mp hmem
  have hne : m ≠ l := fun heq => State.saved_ne_none.mp hl (heq ▸ hm)
  exact K.slots_disjoint hne hn hln

/-- The variables of the modules after those of one have changed. -/
theorem data_update (h : Consistent K table k₀ s) {o : Option (Data W)}
    (ho : ∀ d, o = some d →
      table ≠ 0 ∧ d = ⟨table, (K.slots m).map fun n => (n, k₀.mem (entry table n))⟩)
    (l : KernelModule) (d : Data W) (hd : Function.update s.loaded m o l = some d) :
    table ≠ 0 ∧ d = ⟨table, (K.slots l).map fun n => (n, k₀.mem (entry table n))⟩ := by
  by_cases hl : l = m
  · subst hl
    rw [Function.update_self] at hd
    exact ho d hd
  · rw [Function.update_of_ne hl] at hd
    exact h.data l d hd

theorem load (h : Consistent K table k₀ s) (hprot : k₀.cr0.getLsbD 16 = true)
    (hm : s.loaded m = none) (htable : table ≠ 0) :
    Consistent K table k₀
      { kernel := (interceptorStart K m table s.kernel).2.2
        loaded := Function.update s.loaded m
          (some (interceptorStart K m table s.kernel).2.1) } where
  cr0 := (interceptorStart_cr0 table (h.cr0 ▸ hprot)).trans h.cr0
  data := by
    refine h.data_update fun d hd => ⟨htable, ?_⟩
    rw [← Option.some.inj hd, interceptorStart_data htable]
    exact congrArg _ (List.map_congr_left fun n hn => by rw [h.original hm hn])
  patched := by
    have hsaved : s.saved table m = none := by rw [State.saved, hm]; rfl
    have hinstall := h.patched.install hsaved
    rw [State.saved_update, interceptorStart_mem htable, interceptorStart_data htable]
    rw [← located_saved] at hinstall
    exact hinstall

theorem unload (h : Consistent K table k₀ s) (hprot : k₀.cr0.getLsbD 16 = true) {d : Data W}
    (hm : s.loaded m = some d) :
    Consistent K table k₀
      { kernel := interceptorEnd d s.kernel, loaded := Function.update s.loaded m none } where
  cr0 := (interceptorEnd_cr0 d (h.cr0 ▸ hprot)).trans h.cr0
  data := h.data_update fun d hd => absurd hd (Option.some_ne_none d).symm
  patched := by
    obtain ⟨htable, rfl⟩ := h.data m d hm
    have hremove := h.patched.remove (k := m) (by rw [State.saved, hm]; rfl)
    rw [State.saved_update, interceptorEnd_mem htable]
    exact hremove

/-- One load or unload. -/
theorem next (h : Consistent K table k₀ s) (hprot : k₀.cr0.getLsbD 16 = true) {e : Event}
    {s' : State W} (hs : next K table e s = some s') : Consistent K table k₀ s' := by
  cases e with
  | load m found =>
      cases hm : s.loaded m with
      | some d => simp [Interceptor.next, hm] at hs
      | none =>
          simp only [Interceptor.next, hm, Option.some.injEq] at hs
          by_cases hfound : found = true ∧ table ≠ 0
          · rw [if_pos hfound.1, if_pos (interceptorStart_code hfound.2)] at hs
            exact hs ▸ h.load hprot hm hfound.2
          · have hzero : (if found = true then table else 0) = 0 := by
              by_cases htrue : found = true
              · rw [if_pos htrue]
                exact not_not.mp fun hne => hfound ⟨htrue, hne⟩
              · exact if_neg htrue
            rw [hzero, interceptorStart_zero] at hs
            exact hs ▸ h
  | unload m =>
      cases hm : s.loaded m with
      | none => simp [Interceptor.next, hm] at hs
      | some d =>
          simp only [Interceptor.next, hm, Option.some.injEq] at hs
          exact hs ▸ h.unload hprot hm

theorem intact (h : Consistent K table k₀ s) (hprot : k₀.cr0.getLsbD 16 = true) :
    Intact K table k₀ s where
  unowned := by
    intro n hn hfree
    refine h.patched.untouched _ fun m hm hmem => ?_
    exact hfree m (State.saved_ne_none.mp hm) ((entry_mem_keys K table hn).mp hmem)
  owned := fun m hm e he =>
    h.patched.owned m (State.saved_ne_none.mpr hm) (entry table e.1, e.2)
      (List.mem_map_of_mem he)
  saved := fun m d hd => (h.data m d hd).2 ▸ rfl
  protection := h.cr0 ▸ hprot
  cr0 := h.cr0
  unloaded := fun hnone => h.patched.eq_base fun m => by rw [State.saved, hnone m]; rfl

end Consistent

/-- Whatever is loaded and unloaded, in any order, and whichever searches fail,
the table stays intact. -/
theorem intact_of_reachable (K : Symbols W) (table : Word W) {k₀ : Kernel W}
    (hprot : k₀.cr0.getLsbD 16 = true) {s : State W}
    (hs : Transition.Reachable (next K table) (start k₀) s) : Intact K table k₀ s :=
  (hs.invariant (Consistent.start K table k₀) fun _ _ _ _ h => h.next hprot).intact hprot

/-- `openclose` and `intercept` are loaded, the search of `module` fails, and
`openclose` is unloaded before `intercept`. -/
theorem intact_after_openclose_intercept :
    ∃ s, s.loaded .openclose = none ∧ s.loaded .intercept ≠ none ∧
      Intact linux32 0xC0200000 ⟨fun a => a, 0x80050033⟩ s := by
  refine ⟨_, ?_, ?_, intact_of_reachable linux32 0xC0200000 (by decide)
    (Transition.Reachable.of_run [.load .openclose true, .load .intercept true,
      .load .module false, .unload .openclose] Relation.ReflTransGen.refl rfl)⟩
  · rfl
  · exact Option.some_ne_none _

end Interceptor

end OperatingSystems
