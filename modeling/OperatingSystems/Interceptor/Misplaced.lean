import OperatingSystems.Interceptor.Order

/-!
# The variables of a module in memory

The variables `sys_call_table` and `ref_sys_` of a module lie in the memory that
`find_sys_call_table` goes through. So once `openclose` has kept `sys_close` in a
variable of its own, and put its own handler into the table, the search has a hit
where that variable would be the entry `__NR_close` of a table, and none at the table.
A module that is loaded then finds some place, reports success, and leaves its entry
in the table alone.
-/

namespace OperatingSystems

namespace Interceptor

variable {W : WordSize}

/-- The addresses of the variables of the modules: `sys_call_table`, and the
`ref_sys_` pointer for each entry that is replaced. -/
structure Variables (W : WordSize) where
  sysCallTable : KernelModule → Word W
  ref : KernelModule → ℕ → Word W

section Code

variable (K : Symbols W) (V : Variables W) (m : KernelModule)

/-- The addresses of the variables of a module. -/
def Variables.addresses : List (Word W) := V.sysCallTable m :: (K.slots m).map (V.ref m)

/-- `ref_sys_` = `sys_call_table[n]` for one entry after the other. -/
def saveRefs (found : Word W) (ns : List ℕ) (mem : Memory W) : Memory W :=
  ns.foldl (fun mem n => Function.update mem (V.ref m n) (mem (entry found n))) mem

/-- `interceptor_start` with its variables in memory. -/
def startInMemory (found : Word W) (k : Kernel W) : ℤ × Kernel W :=
  let mem := Function.update k.mem (V.sysCallTable m) found
  if found = 0 then (-1, { k with mem := mem })
  else
    (0, (({ k with mem := saveRefs V m found (K.slots m) mem } : Kernel W).disablePageProtection
      |>.writeEntries found (K.hooks m)).enablePageProtection)

end Code

section Saving

variable {K : Symbols W} {V : Variables W} {m : KernelModule} {found a : Word W}

theorem saveRefs_of_notMem {ns : List ℕ} (h : a ∉ ns.map (V.ref m)) (mem : Memory W) :
    saveRefs V m found ns mem a = mem a := by
  induction ns generalizing mem with
  | nil => rfl
  | cons n ns ih =>
      rw [List.map_cons, List.mem_cons, not_or] at h
      rw [saveRefs, List.foldl_cons]
      refine (ih h.2 _).trans ?_
      exact Function.update_of_ne h.1 _ _

/-- Variables that are no entries of what is taken for the table get what it holds. -/
theorem saveRefs_of_mem {ns : List ℕ} (hnodup : (ns.map (V.ref m)).Nodup)
    (hapart : ∀ n ∈ ns, entry found n ∉ ns.map (V.ref m)) (mem : Memory W) {n : ℕ} (hn : n ∈ ns) :
    saveRefs V m found ns mem (V.ref m n) = mem (entry found n) := by
  induction ns generalizing mem with
  | nil => exact absurd hn List.not_mem_nil
  | cons d ns ih =>
      rw [List.map_cons, List.nodup_cons] at hnodup
      have hd : ∀ n ∈ d :: ns, entry found n ≠ V.ref m d ∧ entry found n ∉ ns.map (V.ref m) := by
        intro n hn
        have h := hapart n hn
        rwa [List.map_cons, List.mem_cons, not_or] at h
      rw [saveRefs, List.foldl_cons]
      rcases List.mem_cons.mp hn with rfl | hn
      · refine (saveRefs_of_notMem hnodup.1 _).trans ?_
        exact Function.update_self _ _ _
      · refine (ih hnodup.2 (fun n hn => (hd n (List.mem_cons_of_mem _ hn)).2) _ hn).trans ?_
        exact Function.update_of_ne (hd n (List.mem_cons_of_mem _ hn)).1 _ _

theorem startInMemory_code (K : Symbols W) (V : Variables W) (m : KernelModule) (k : Kernel W)
    (h : found ≠ 0) : (startInMemory K V m found k).1 = 0 := by
  rw [startInMemory, if_neg h]

theorem startInMemory_mem (K : Symbols W) (V : Variables W) (m : KernelModule) (k : Kernel W)
    (h : found ≠ 0) :
    (startInMemory K V m found k).2.mem =
      Patch.apply (located found (K.hooks m))
        (saveRefs V m found (K.slots m) (Function.update k.mem (V.sysCallTable m) found)) := by
  rw [startInMemory, if_neg h]
  exact mem_writeEntries _ _ _

/-- Before the entries are written, the memory has changed in the variables only. -/
theorem startInMemory_of_notMem (K : Symbols W) (k : Kernel W) (h : found ≠ 0)
    (ha : a ∉ V.addresses K m) :
    (startInMemory K V m found k).2.mem a =
      Patch.apply (located found (K.hooks m)) k.mem a := by
  rw [startInMemory_mem K V m k h]
  by_cases hkey : a ∈ Patch.keys (located found (K.hooks m))
  · obtain ⟨e, he, rfl⟩ := List.mem_map.mp hkey
    have hnodup : (Patch.keys (located found (K.hooks m))).Nodup := (K.family found).nodup m
    rw [Patch.apply_of_mem hnodup he, Patch.apply_of_mem hnodup he]
  · obtain ⟨htable, href⟩ := not_or.mp (mt List.mem_cons.mpr ha)
    rw [Patch.apply_of_notMem hkey, Patch.apply_of_notMem hkey, saveRefs_of_notMem href,
      Function.update_of_ne htable]

/-- A variable is no entry that the module writes. -/
theorem ref_notMem_keys (hapart : ∀ n ∈ K.slots m, entry found n ∉ V.addresses K m)
    (ha : a ∈ V.addresses K m) : a ∉ Patch.keys (located found (K.hooks m)) := by
  rw [keys_located]
  intro hkey
  obtain ⟨n, hn, rfl⟩ := List.mem_map.mp hkey
  exact hapart n hn ha

/-- The variables hold what the module has kept. -/
theorem startInMemory_ref (k : Kernel W) (h : found ≠ 0) (hnodup : (V.addresses K m).Nodup)
    (hapart : ∀ n ∈ K.slots m, entry found n ∉ V.addresses K m) {n : ℕ} (hn : n ∈ K.slots m) :
    (startInMemory K V m found k).2.mem (V.ref m n) = k.mem (entry found n) := by
  have hmem : V.ref m n ∈ V.addresses K m :=
    List.mem_cons_of_mem _ (List.mem_map_of_mem hn)
  obtain ⟨-, hrefs⟩ := List.nodup_cons.mp hnodup
  have hentry := fun n hn => not_or.mp (mt List.mem_cons.mpr (hapart n hn))
  rw [startInMemory_mem K V m k h, Patch.apply_of_notMem (ref_notMem_keys hapart hmem),
    saveRefs_of_mem hrefs (fun n hn => (hentry n hn).2) _ hn,
    Function.update_of_ne (hentry n hn).1]

/-- With its variables in memory a module does what it does without: it keeps the same
handlers, and elsewhere leaves the same memory. -/
theorem startInMemory_refines (k : Kernel W) (hnodup : (V.addresses K m).Nodup)
    (hapart : ∀ n ∈ K.slots m, entry found n ∉ V.addresses K m) :
    (startInMemory K V m found k).1 = (interceptorStart K m found k).1 ∧
      (startInMemory K V m found k).2.cr0 = (interceptorStart K m found k).2.2.cr0 ∧
      (∀ a ∉ V.addresses K m,
        (startInMemory K V m found k).2.mem a = (interceptorStart K m found k).2.2.mem a) ∧
      (found ≠ 0 → (interceptorStart K m found k).2.1.refs =
        (K.slots m).map fun n => (n, (startInMemory K V m found k).2.mem (V.ref m n))) := by
  by_cases h : found = 0
  · subst h
    rw [interceptorStart_zero, startInMemory, if_pos rfl]
    refine ⟨rfl, rfl, fun a ha => ?_, fun hne => absurd rfl hne⟩
    exact Function.update_of_ne (List.ne_of_not_mem_cons ha) _ _
  · refine ⟨?_, ?_, fun a ha => ?_, fun _ => ?_⟩
    · rw [startInMemory_code K V m k h, interceptorStart_code h]
    · rw [startInMemory, if_neg h, interceptorStart, if_neg h]
      rfl
    · rw [startInMemory_of_notMem K k h ha, interceptorStart_mem h]
    · rw [interceptorStart_data h]
      exact List.map_congr_left fun n hn => by rw [startInMemory_ref k h hnodup hapart hn]

end Saving

section Misplaced

variable {K : Symbols W} {V : Variables W} {table : Word W} {k : Kernel W} {m : KernelModule}

/-- The address at which a table would have `openclose`'s variable for `close` as its
entry. -/
def Variables.shadow (V : Variables W) (K : Symbols W) : Word W :=
  V.ref .openclose K.nrClose - BitVec.ofNat W.bits (K.nrClose * W.bytes)

/-- The variables of the modules are no entries of the table, and those of `openclose`
lie at different aligned addresses above the first words that are looked at. -/
structure Variables.Apart (V : Variables W) (K : Symbols W) (table : Word W) : Prop where
  nodup : (V.addresses K .openclose).Nodup
  aligned : Aligned (V.ref .openclose K.nrClose)
  above : K.pageOffset.toNat + K.nrClose * W.bytes ≤ (V.ref .openclose K.nrClose).toNat
  entries : ∀ m m', ∀ n ∈ K.slots m', entry table n ∉ V.addresses K m

/-- Where the variable holds `sys_close`, the shadow looks like the table. -/
theorem Variables.Apart.candidate (hV : V.Apart K table) {mem : Memory W}
    (hmem : mem (V.ref .openclose K.nrClose) = K.sysClose) : Candidate K mem (V.shadow K) := by
  have hsmall : (BitVec.ofNat W.bits (K.nrClose * W.bytes)).toNat = K.nrClose * W.bytes := by
    rw [BitVec.toNat_ofNat, Nat.mod_eq_of_lt K.nrClose_fit]
  have hle := hV.above
  have hnat : (V.shadow K).toNat =
      (V.ref .openclose K.nrClose).toNat - K.nrClose * W.bytes := by
    rw [Variables.shadow, BitVec.toNat_sub_of_le ?_, hsmall]
    rw [BitVec.le_def, hsmall]
    omega
  refine ⟨?_, by omega, ?_⟩
  · unfold Aligned
    rw [hnat]
    exact Nat.dvd_sub hV.aligned (Nat.dvd_mul_left _ _)
  · unfold Hit
    rw [entry, Variables.shadow, BitVec.sub_add_cancel]
    exact hmem

/-- A module other than `openclose` replaces one entry. -/
theorem eq_of_mem_slots (hm : m ≠ .openclose) {n n' : ℕ} (hn : n ∈ K.slots m)
    (hn' : n' ∈ K.slots m) : n = n' := by
  cases m with
  | openclose => exact absurd rfl hm
  | intercept => exact (List.mem_singleton.mp hn).trans (List.mem_singleton.mp hn').symm
  | module => exact (List.mem_singleton.mp hn).trans (List.mem_singleton.mp hn').symm

/-- A module that takes another place for the table leaves its entry alone. -/
theorem entry_of_misplaced (hV : V.Apart K table) (hm : m ≠ .openclose) {found : Word W}
    (hfound : found ≠ 0) (hne : found ≠ table) {n : ℕ} (hn : n ∈ K.slots m) :
    (startInMemory K V m found k).2.mem (entry table n) = k.mem (entry table n) := by
  rw [startInMemory_of_notMem K k hfound (hV.entries m m n hn), Patch.apply_of_notMem]
  rw [keys_located]
  intro hkey
  obtain ⟨n', hn', heq⟩ := List.mem_map.mp hkey
  obtain rfl := eq_of_mem_slots hm hn hn'
  exact hne ((BitVec.add_left_inj _).mp heq)

/-- What `openclose` does to the table, and to the entries of the other modules. -/
theorem mem_openclose (hV : V.Apart K table) (htable : table ≠ 0) :
    (∀ h ∈ K.hooks .openclose,
        (startInMemory K V .openclose table k).2.mem (entry table h.1) = h.2) ∧
      ∀ m ≠ .openclose, ∀ n ∈ K.slots m,
        (startInMemory K V .openclose table k).2.mem (entry table n) = k.mem (entry table n) := by
  constructor
  · intro h hh
    rw [startInMemory_of_notMem K k htable
      (hV.entries _ .openclose _ (List.mem_map_of_mem hh))]
    exact Patch.apply_of_mem ((K.family table).nodup .openclose) (List.mem_map_of_mem hh) _
  · intro m hm n hn
    rw [startInMemory_of_notMem K k htable (hV.entries _ m n hn), Patch.apply_of_notMem]
    intro hkey
    exact K.slots_disjoint hm hn ((entry_mem_keys K table (K.slots_fit hn)).mp hkey)

/-- Once `openclose` is in the kernel, with its variables in memory, every search ends,
and never with the table: a module that is loaded then reports success, while its entry
in the table stays what it was. -/
theorem misplaced_of_openclose (hV : V.Apart K table) (hpage : K.pageOffset ≠ 0)
    (hfinds : Finds K k.mem table) (htable : table ≠ 0) {k₁ : Kernel W}
    (hk₁ : startInMemory K V .openclose table k = (0, k₁)) :
    (∀ h ∈ K.hooks .openclose, k₁.mem (entry table h.1) = h.2) ∧
      ∃ found, Finds K k₁.mem found ∧ found ≠ table ∧ found.toNat ≤ (V.shadow K).toNat ∧
        ∀ m ≠ .openclose, (startInMemory K V m found k₁).1 = 0 ∧
          ∀ n ∈ K.slots m,
            (startInMemory K V m found k₁).2.mem (entry table n) = k.mem (entry table n) := by
  obtain ⟨hown, hother⟩ := mem_openclose (k := k) hV htable
  have hclose : K.nrClose ∈ K.slots .openclose := K.nrClose_mem_slots.mpr rfl
  have href := startInMemory_ref k htable hV.nodup (fun n hn => hV.entries _ _ n hn) hclose
  rw [hk₁] at hown hother href
  have hcandidate := hV.candidate (href.trans hfinds.hit)
  obtain ⟨found, hfound, hcand, hlow⟩ := finds_of_candidate ⟨_, hcandidate⟩
  have hne : found ≠ table := by
    rintro rfl
    have hhook : (K.nrClose, K.newClose) ∈ K.hooks .openclose :=
      List.mem_cons_of_mem _ List.mem_cons_self
    exact K.hook_ne_sysClose hhook ((hown _ hhook).symm.trans hcand.hit)
  have hzero : found ≠ 0 := by
    rintro rfl
    have habove := hcand.above
    refine hpage (BitVec.eq_of_toNat_eq ?_)
    simpa using habove
  refine ⟨hown, found, hfound, hne, hlow _ hcandidate, fun m hm => ⟨?_, fun n hn => ?_⟩⟩
  · exact startInMemory_code K V m k₁ hzero
  · exact (entry_of_misplaced hV hm hzero hne hn).trans (hother m hm n hn)

/-- The modules have pages of their own for their variables. -/
def modulePage : KernelModule → Word .w32
  | .openclose => 0xE0001000
  | .intercept => 0xE0011000
  | .module => 0xE0021000

def modulePages : Variables .w32 where
  sysCallTable := modulePage
  ref := fun m n => entry (modulePage m) (n + 1)

theorem apart_modulePages : modulePages.Apart linux32 0xC0200000 where
  nodup := by decide
  aligned := by decide
  above := by decide
  entries := by
    intro m m'
    cases m <;> cases m' <;> decide

/-- The kernel with `openclose` loaded. -/
def opencloseLoaded : Kernel .w32 :=
  (startInMemory linux32 modulePages .openclose 0xC0200000 ⟨tableMemory, 0x80050033⟩).2

/-- `intercept` is loaded after `openclose`, and its system call is not intercepted. -/
theorem misplaced_of_openclose_intercept :
    ∃ found, Finds linux32 opencloseLoaded.mem found ∧
      (startInMemory linux32 modulePages .intercept found opencloseLoaded).1 = 0 ∧
      (startInMemory linux32 modulePages .intercept found opencloseLoaded).2.mem
        (entry (0xC0200000 : Word .w32) linux32.nrSyscall2) = 0 := by
  have hfinds : Finds linux32 tableMemory 0xC0200000 :=
    (candidate_tableMemory.mpr rfl).finds_iff_lowest.mpr fun a ha => by
      rw [candidate_tableMemory.mp ha]
  have hload : startInMemory linux32 modulePages .openclose 0xC0200000
      ⟨tableMemory, 0x80050033⟩ = (0, opencloseLoaded) :=
    Prod.ext (startInMemory_code _ _ _ _ (by decide)) rfl
  obtain ⟨-, found, hfound, -, -, hall⟩ :=
    misplaced_of_openclose apart_modulePages (by decide) hfinds (by decide) hload
  obtain ⟨hcode, hentry⟩ := hall .intercept (by decide)
  refine ⟨found, hfound, hcode, ?_⟩
  rw [hentry linux32.nrSyscall2 (by decide)]
  decide

end Misplaced

end Interceptor

end OperatingSystems
