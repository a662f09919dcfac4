import OperatingSystems.Interceptor.Loading
import OperatingSystems.Interceptor.Search

/-!
# The order of loading

Every module looks for the table by the handler in its entry `__NR_close`, and
`openclose` replaces that handler. What the other two modules write makes no
address look like the table and leaves the table looking like one. So the
modules can be loaded in the orders in which `openclose` comes last, provided
that no lower address looks like the table to begin with.
-/

namespace OperatingSystems

namespace Interceptor

variable {W : WordSize} {K : Symbols W} {k : Kernel W} {sct : Word W} {m : KernelModule}

/-- The modules of a list are loaded one after the other: each search returns
`sct` and each `interceptor_start` returns 0. -/
def LoadsAll (K : Symbols W) (sct : Word W) : List KernelModule → Kernel W → Kernel W → Prop
  | [], k, k' => k' = k
  | m :: l, k, k' =>
    Finds K k.mem sct ∧ (interceptorStart K m sct k).1 = 0 ∧
      LoadsAll K sct l (interceptorStart K m sct k).2.2 k'

/-- Both orders go through and give the same table. -/
def OrderFree (K : Symbols W) (sct : Word W) (k : Kernel W) (l l' : List KernelModule) : Prop :=
  ∃ k₁ k₂, LoadsAll K sct l k k₁ ∧ LoadsAll K sct l' k k₂ ∧
    ∀ n, n * W.bytes < 2 ^ W.bits → k₁.mem (entry sct n) = k₂.mem (entry sct n)

theorem interceptorStart_code_eq_zero : (interceptorStart K m sct k).1 = 0 ↔ sct ≠ 0 := by
  constructor
  · rintro h rfl
    rw [interceptorStart_zero] at h
    exact absurd (show (-1 : ℤ) = 0 from h) (by decide)
  · exact interceptorStart_code

theorem Symbols.hook_ne_sysClose (K : Symbols W) {h : ℕ × Word W} (hh : h ∈ K.hooks m) :
    h.2 ≠ K.sysClose := by
  have hmem : h.2 ∈ [K.newOpen, K.newClose, K.newSyscall1, K.newSyscall2] := by
    refine List.Sublist.subset ?_ (List.mem_map_of_mem hh)
    cases m with
    | openclose =>
        exact List.sublist_append_left [K.newOpen, K.newClose] [K.newSyscall1, K.newSyscall2]
    | intercept => exact List.singleton_sublist.mpr (by simp)
    | module => exact List.singleton_sublist.mpr (by simp)
  exact fun heq => K.sysClose_notMem (heq ▸ hmem)

/-- No handler of the modules is `sys_close`, so a load makes no new address
look like the table. -/
theorem Hit.of_apply {a : Word W}
    (h : Hit K (Patch.apply ((K.family sct).patch m) k.mem) a) : Hit K k.mem a := by
  unfold Hit at h
  by_cases hkey : entry a K.nrClose ∈ Patch.keys ((K.family sct).patch m)
  · obtain ⟨e, he, heq⟩ := List.mem_map.mp hkey
    obtain ⟨hook, hhook, rfl⟩ := List.mem_map.mp he
    rw [← heq, Patch.apply_of_mem ((K.family sct).nodup m) he] at h
    exact absurd h (K.hook_ne_sysClose hhook)
  · rwa [Patch.apply_of_notMem hkey] at h

theorem Candidate.of_apply {a : Word W}
    (h : Candidate K (Patch.apply ((K.family sct).patch m) k.mem) a) : Candidate K k.mem a :=
  ⟨h.aligned, h.above, h.hit.of_apply⟩

theorem Symbols.nrClose_fit (K : Symbols W) : K.nrClose * W.bytes < 2 ^ W.bits :=
  K.numbers_fit K.nrClose (by simp)

theorem Symbols.nrClose_mem_slots (K : Symbols W) : K.nrClose ∈ K.slots m ↔ m = .openclose := by
  have hmem : K.nrClose ∈ K.slots .openclose := List.mem_cons_of_mem _ List.mem_cons_self
  refine ⟨fun h => ?_, fun h => h ▸ hmem⟩
  by_contra hne
  exact K.slots_disjoint hne h hmem

/-- The table still looks like one after a load, unless it was that of
`openclose`. -/
theorem hit_apply_iff (h : Hit K k.mem sct) :
    Hit K (Patch.apply ((K.family sct).patch m) k.mem) sct ↔ m ≠ .openclose := by
  constructor
  · rintro hhit rfl
    have hmem : (K.nrClose, K.newClose) ∈ K.hooks .openclose :=
      List.mem_cons_of_mem _ List.mem_cons_self
    have hvalue := Patch.apply_of_mem ((K.family sct).nodup .openclose)
      (List.mem_map_of_mem hmem) k.mem
    exact K.hook_ne_sysClose hmem (hvalue.symm.trans hhit)
  · intro hm
    have hkey : entry sct K.nrClose ∉ Patch.keys ((K.family sct).patch m) := fun hkey =>
      hm (K.nrClose_mem_slots.mp ((entry_mem_keys K sct K.nrClose_fit).mp hkey))
    exact (Patch.apply_of_notMem hkey k.mem).trans h

/-- What the memory holds after the modules of a list have been loaded. -/
theorem LoadsAll.mem_eq {l : List KernelModule} {k' : Kernel W} (h : LoadsAll K sct l k k') :
    k'.mem = l.foldl (fun mem m => Patch.apply ((K.family sct).patch m) mem) k.mem := by
  induction l generalizing k with
  | nil => exact congrArg Kernel.mem h
  | cons m l ih =>
      obtain ⟨-, hcode, hrest⟩ := h
      rw [ih hrest, interceptorStart_mem (interceptorStart_code_eq_zero.mp hcode)]
      rfl

/-- A list of modules goes through just when `openclose` is not loaded before
another module and the table is the lowest candidate. -/
theorem exists_loadsAll_iff {l : List KernelModule} (hne : l ≠ [])
    (h : Candidate K k.mem sct) :
    (∃ k', LoadsAll K sct l k k') ↔
      sct ≠ 0 ∧ Lowest K k.mem sct ∧ .openclose ∉ l.dropLast := by
  induction l generalizing k with
  | nil => exact absurd rfl hne
  | cons m l ih =>
      have hcons : (∃ k', LoadsAll K sct (m :: l) k k') ↔ sct ≠ 0 ∧ Lowest K k.mem sct ∧
          ∃ k', LoadsAll K sct l (interceptorStart K m sct k).2.2 k' := by
        simp only [LoadsAll, interceptorStart_code_eq_zero, h.finds_iff_lowest, exists_and_left]
        tauto
      rw [hcons]
      refine and_congr_right fun hsct => and_congr_right fun hlow => ?_
      cases l with
      | nil => exact iff_of_true ⟨_, rfl⟩ List.not_mem_nil
      | cons m' l =>
          have hmem : (interceptorStart K m sct k).2.2.mem =
              Patch.apply ((K.family sct).patch m) k.mem := interceptorStart_mem hsct
          by_cases hm : m = .openclose
          · -- the next search does not find the table any more
            refine iff_of_false ?_ (fun hnot => hnot (hm ▸ List.mem_cons_self))
            rintro ⟨k', hfinds, -⟩
            have hhit := hfinds.hit
            rw [hmem, hit_apply_iff h.hit] at hhit
            exact hhit hm
          · have hcandidate : Candidate K (interceptorStart K m sct k).2.2.mem sct :=
              ⟨h.aligned, h.above, by rw [hmem]; exact (hit_apply_iff h.hit).mpr hm⟩
            have hlowest : Lowest K (interceptorStart K m sct k).2.2.mem sct := by
              rw [hmem]
              exact fun a ha => hlow a ha.of_apply
            rw [ih (List.cons_ne_nil m' l) hcandidate,
              List.dropLast_cons_of_ne_nil (List.cons_ne_nil m' l), List.mem_cons, not_or]
            exact ⟨fun hall => ⟨Ne.symm hm, hall.2.2⟩, fun hall => ⟨hsct, hlowest, hall.2⟩⟩

/-- Two orders of the same modules go through and give the same table just when
`openclose` is last in both, if it is loaded at all, and the table is the lowest
candidate. -/
theorem orderFree_iff {l l' : List KernelModule} (h : Candidate K k.mem sct)
    (hperm : l.Perm l') :
    OrderFree K sct k l l' ↔ l = [] ∨
      (sct ≠ 0 ∧ Lowest K k.mem sct ∧ .openclose ∉ l.dropLast ∧ .openclose ∉ l'.dropLast) := by
  by_cases hne : l = []
  · obtain rfl := hne
    obtain rfl := hperm.nil_eq
    exact iff_of_true ⟨k, k, rfl, rfl, fun _ _ => rfl⟩ (.inl rfl)
  · have hne' : l' ≠ [] := fun h' => hne (List.Perm.eq_nil (h' ▸ hperm))
    rw [or_iff_right hne]
    constructor
    · rintro ⟨k₁, k₂, h₁, h₂, -⟩
      obtain ⟨hsct, hlow, hlast⟩ := (exists_loadsAll_iff hne h).mp ⟨k₁, h₁⟩
      obtain ⟨-, -, hlast'⟩ := (exists_loadsAll_iff hne' h).mp ⟨k₂, h₂⟩
      exact ⟨hsct, hlow, hlast, hlast'⟩
    · rintro ⟨hsct, hlow, hlast, hlast'⟩
      obtain ⟨k₁, h₁⟩ := (exists_loadsAll_iff hne h).mpr ⟨hsct, hlow, hlast⟩
      obtain ⟨k₂, h₂⟩ := (exists_loadsAll_iff hne' h).mpr ⟨hsct, hlow, hlast'⟩
      refine ⟨k₁, k₂, h₁, h₂, fun n _ => ?_⟩
      rw [h₁.mem_eq, h₂.mem_eq, (K.family sct).foldl_perm hperm]

section Example

/-- A memory whose only address that looks like the table is `0xC0200000`. -/
def tableMemory : Memory .w32 := fun a =>
  if a = entry (0xC0200000 : Word .w32) linux32.nrClose then linux32.sysClose else 0

theorem candidate_tableMemory {a : Word .w32} :
    Candidate linux32 tableMemory a ↔ a = (0xC0200000 : Word .w32) := by
  constructor
  · intro h
    have hhit : tableMemory (entry a linux32.nrClose) = linux32.sysClose := h.hit
    by_contra hne
    have haddr : entry a linux32.nrClose ≠ entry (0xC0200000 : Word .w32) linux32.nrClose :=
      fun heq => hne ((BitVec.add_left_inj _).mp heq)
    rw [tableMemory, if_neg haddr] at hhit
    exact absurd hhit (by decide)
  · rintro rfl
    exact ⟨by decide, by decide, by decide⟩

/-- `openclose` loaded last, after the two others in either order. -/
theorem orderFree_openclose_last :
    OrderFree linux32 0xC0200000 ⟨tableMemory, 0x80050033⟩
      [.intercept, .module, .openclose] [.module, .intercept, .openclose] :=
  (orderFree_iff (candidate_tableMemory.mpr rfl) (List.Perm.swap _ _ _)).mpr
    (.inr ⟨by decide, fun a ha => by rw [candidate_tableMemory.mp ha], by decide, by decide⟩)

/-- With `openclose` loaded first, `intercept` does not find the table. -/
theorem openclose_first :
    Candidate linux32 tableMemory 0xC0200000 ∧
      ¬ OrderFree linux32 0xC0200000 ⟨tableMemory, 0x80050033⟩
        [.openclose, .intercept] [.intercept, .openclose] := by
  refine ⟨candidate_tableMemory.mpr rfl, ?_⟩
  rintro ⟨k₁, -, h₁, -⟩
  have hlast := (exists_loadsAll_iff (List.cons_ne_nil _ _) (candidate_tableMemory.mpr rfl)).mp
    ⟨k₁, h₁⟩
  exact hlast.2.2 (by decide)

end Example

end Interceptor

end OperatingSystems
