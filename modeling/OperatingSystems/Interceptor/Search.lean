import Mathlib.Data.Nat.Find
import OperatingSystems.Interceptor.Kernel

/-!
# The search for the system call table

`find_sys_call_table` goes up from `PAGE_OFFSET` word by word. Its guard compares
the offset with `ULLONG_MAX`: an offset of 32 bits is always below that, and one
of 64 bits that is a multiple of the word size never equals it. So the guard
never fails, and the offset wraps around to the addresses below `PAGE_OFFSET`.
The search ends at the first hit after that, and without a hit it never ends:
the `return NULL` after the loop is not reached.
-/

namespace OperatingSystems

namespace Interceptor

variable {W : WordSize} {K : Symbols W} {mem : Memory W}

/-- `sct[__NR_close] == sys_close`. -/
def Hit (K : Symbols W) (mem : Memory W) (sct : Word W) : Prop :=
  mem (entry sct K.nrClose) = K.sysClose

instance (sct : Word W) : Decidable (Hit K mem sct) :=
  inferInstanceAs (Decidable (_ = _))

/-- A word-aligned address from `PAGE_OFFSET` on that looks like the table. -/
structure Candidate (K : Symbols W) (mem : Memory W) (sct : Word W) : Prop where
  aligned : Aligned sct
  above : K.pageOffset.toNat ≤ sct.toNat
  hit : Hit K mem sct

/-- No candidate lies below `sct`. -/
def Lowest (K : Symbols W) (mem : Memory W) (sct : Word W) : Prop :=
  ∀ a, Candidate K mem a → sct.toNat ≤ a.toNat

/-- The search returns the lowest candidate, and `NULL` where there is none. In
that case `interceptor_start` returns -1 and changes nothing. -/
def SearchCorrect (K : Symbols W) (mem : Memory W) : Prop :=
  ∃ sct, Finds K mem sct ∧
    ((∃ a, Candidate K mem a) → Candidate K mem sct ∧ Lowest K mem sct) ∧
    ((¬ ∃ a, Candidate K mem a) → sct = 0 ∧ ∀ m cr0,
      (interceptorStart K m sct ⟨mem, cr0⟩).1 = -1 ∧
      (interceptorStart K m sct ⟨mem, cr0⟩).2.2 = ⟨mem, cr0⟩)

theorem WordSize.bytes_dvd (W : WordSize) : W.bytes ∣ 2 ^ W.bits := by
  cases W <;> decide

theorem toNat_entry (sct : Word W) (n : ℕ) :
    (entry sct n).toNat = (sct.toNat + n * W.bytes) % 2 ^ W.bits := by
  rw [entry, BitVec.toNat_add, BitVec.toNat_ofNat, Nat.add_mod_mod]

theorem Aligned.entry {a : Word W} (h : Aligned a) (n : ℕ) : Aligned (entry a n) := by
  unfold Aligned
  rw [toNat_entry]
  exact (Nat.dvd_mod_iff W.bytes_dvd).mpr (Nat.dvd_add h (Nat.dvd_mul_left _ n))

/-- The guard of the loop holds of every offset it is evaluated at. -/
theorem Aligned.guard {offset : Word W} (h : Aligned offset) : offset.toNat < ullongMax := by
  have hlt := offset.isLt
  unfold ullongMax
  cases W with
  | w32 =>
      change _ < 2 ^ 32 at hlt
      omega
  | w64 =>
      change _ < 2 ^ 64 at hlt
      change 8 ∣ _ at h
      omega

theorem entry_succ (a : Word W) (n : ℕ) :
    entry (a + BitVec.ofNat W.bits W.bytes) n = entry a (n + 1) := by
  rw [entry, entry, Nat.succ_mul, Nat.add_comm, BitVec.ofNat_add, BitVec.add_assoc]

@[simp] theorem entry_zero (a : Word W) : entry a 0 = a := by
  rw [entry, Nat.zero_mul]
  exact BitVec.add_zero a

/-- The passes of the loop before the first hit. -/
theorem findFrom_add {offset : Word W} (h : Aligned offset) (n fuel : ℕ)
    (hmiss : ∀ i < n, ¬ Hit K mem (entry offset i)) :
    findFrom K mem (n + fuel) offset = findFrom K mem fuel (entry offset n) := by
  induction n generalizing offset with
  | zero => rw [Nat.zero_add, entry_zero]
  | succ n ih =>
      have hfirst : ¬ mem (entry offset K.nrClose) = K.sysClose := by
        have hzero := hmiss 0 (Nat.succ_pos n)
        rwa [entry_zero] at hzero
      have hnext : Aligned (offset + BitVec.ofNat W.bits W.bytes) := by
        have hone := h.entry 1
        rwa [entry, Nat.one_mul] at hone
      rw [Nat.succ_add, findFrom, if_pos h.guard, if_neg hfirst, ih hnext, entry_succ]
      intro i hi
      rw [entry_succ]
      exact hmiss (i + 1) (Nat.succ_lt_succ hi)

theorem findFrom_hit {offset : Word W} (h : Aligned offset) (hhit : Hit K mem offset) (fuel : ℕ) :
    findFrom K mem (fuel + 1) offset = some offset := by
  rw [findFrom, if_pos h.guard]
  exact if_pos hhit

/-- Without a hit at the first offsets the loop is still running. -/
theorem findSysCallTable_eq_none {fuel : ℕ}
    (hmiss : ∀ i < fuel, ¬ Hit K mem (entry K.pageOffset i)) :
    findSysCallTable K mem fuel = none := by
  have h := findFrom_add K.pageOffset_aligned fuel 0 hmiss
  exact h

/-- The search returns the first hit, counted from `PAGE_OFFSET` and around the
end of the address space. -/
theorem finds_iff {sct : Word W} :
    Finds K mem sct ↔ ∃ n, sct = entry K.pageOffset n ∧ Hit K mem sct ∧
      ∀ i < n, ¬ Hit K mem (entry K.pageOffset i) := by
  constructor
  · rintro ⟨fuel, hfuel⟩
    have hex : ∃ n, Hit K mem (entry K.pageOffset n) := by
      by_contra hnone
      rw [findSysCallTable_eq_none fun i _ hi => hnone ⟨i, hi⟩] at hfuel
      cases hfuel
    have hmiss : ∀ i < Nat.find hex, ¬ Hit K mem (entry K.pageOffset i) :=
      fun i hi => Nat.find_min hex hi
    have hlt : Nat.find hex < fuel := by
      by_contra hle
      rw [findSysCallTable_eq_none fun i hi => hmiss i (by omega)] at hfuel
      cases hfuel
    obtain ⟨rest, rfl⟩ := Nat.exists_eq_add_of_lt hlt
    have hrun := findFrom_add K.pageOffset_aligned (Nat.find hex) (rest + 1) hmiss
    rw [findFrom_hit (K.pageOffset_aligned.entry _) (Nat.find_spec hex)] at hrun
    obtain rfl := Option.some.inj (hrun.symm.trans hfuel)
    exact ⟨Nat.find hex, rfl, Nat.find_spec hex, hmiss⟩
  · rintro ⟨n, rfl, hhit, hmiss⟩
    refine ⟨n + 1, ?_⟩
    rw [findSysCallTable, findFrom_add K.pageOffset_aligned n 1 hmiss]
    exact findFrom_hit (K.pageOffset_aligned.entry n) hhit 0

theorem Finds.hit {sct : Word W} (h : Finds K mem sct) : Hit K mem sct := by
  obtain ⟨n, -, hhit, -⟩ := finds_iff.mp h
  exact hhit

theorem Finds.unique {sct sct' : Word W} (h : Finds K mem sct) (h' : Finds K mem sct') :
    sct = sct' := by
  obtain ⟨n, rfl, hhit, hmiss⟩ := finds_iff.mp h
  obtain ⟨n', rfl, hhit', hmiss'⟩ := finds_iff.mp h'
  rcases Nat.lt_trichotomy n n' with hlt | rfl | hlt
  · exact absurd hhit (hmiss' n hlt)
  · rfl
  · exact absurd hhit' (hmiss n' hlt)

/-- The candidates are the hits before the offset wraps around. -/
theorem candidate_iff {a : Word W} :
    Candidate K mem a ↔ ∃ n, a = entry K.pageOffset n ∧ Hit K mem a ∧
      K.pageOffset.toNat + n * W.bytes < 2 ^ W.bits := by
  constructor
  · intro h
    obtain ⟨n, hn⟩ := Nat.dvd_sub h.aligned K.pageOffset_aligned
    have hsum : K.pageOffset.toNat + n * W.bytes = a.toNat := by
      rw [Nat.mul_comm, ← hn, Nat.add_sub_cancel' h.above]
    refine ⟨n, BitVec.eq_of_toNat_eq ?_, h.hit, hsum ▸ a.isLt⟩
    rw [toNat_entry, hsum, Nat.mod_eq_of_lt a.isLt]
  · rintro ⟨n, rfl, hhit, hlt⟩
    refine ⟨K.pageOffset_aligned.entry n, ?_, hhit⟩
    rw [toNat_entry, Nat.mod_eq_of_lt hlt]
    exact Nat.le_add_right _ _

/-- The lowest candidate is what the search returns. -/
theorem finds_of_candidate (h : ∃ a, Candidate K mem a) :
    ∃ sct, Finds K mem sct ∧ Candidate K mem sct ∧ Lowest K mem sct := by
  have hex : ∃ n, Hit K mem (entry K.pageOffset n) := by
    obtain ⟨a, ha⟩ := h
    obtain ⟨n, rfl, hhit, -⟩ := candidate_iff.mp ha
    exact ⟨n, hhit⟩
  have hfirst : ∀ n, Hit K mem (entry K.pageOffset n) → Nat.find hex ≤ n :=
    fun n hn => Nat.find_min' hex hn
  have hle : ∀ n, Hit K mem (entry K.pageOffset n) →
      K.pageOffset.toNat + Nat.find hex * W.bytes ≤ K.pageOffset.toNat + n * W.bytes :=
    fun n hn => Nat.add_le_add_left (Nat.mul_le_mul_right _ (hfirst n hn)) _
  have hlow : K.pageOffset.toNat + Nat.find hex * W.bytes < 2 ^ W.bits := by
    obtain ⟨a, ha⟩ := h
    obtain ⟨n, rfl, hhit, hlt⟩ := candidate_iff.mp ha
    exact lt_of_le_of_lt (hle n hhit) hlt
  refine ⟨entry K.pageOffset (Nat.find hex),
    finds_iff.mpr ⟨_, rfl, Nat.find_spec hex, fun i hi => Nat.find_min hex hi⟩,
    candidate_iff.mpr ⟨_, rfl, Nat.find_spec hex, hlow⟩, fun a ha => ?_⟩
  obtain ⟨n, rfl, hhit, hlt⟩ := candidate_iff.mp ha
  rw [toNat_entry, toNat_entry, Nat.mod_eq_of_lt hlt, Nat.mod_eq_of_lt hlow]
  exact hle n hhit

theorem Candidate.finds_iff_lowest {sct : Word W} (h : Candidate K mem sct) :
    Finds K mem sct ↔ Lowest K mem sct := by
  obtain ⟨low, hfinds, hcandidate, hlow⟩ := finds_of_candidate ⟨sct, h⟩
  constructor
  · intro hsct
    rw [hsct.unique hfinds]
    exact hlow
  · intro hsct
    have heq : low = sct :=
      BitVec.eq_of_toNat_eq (Nat.le_antisymm (hlow sct h) (hsct low hcandidate))
    exact heq ▸ hfinds

/-- Address 0 is the first one after the offset has wrapped around. -/
theorem finds_zero (h : ¬ ∃ a, Candidate K mem a) (hzero : Hit K mem 0) : Finds K mem 0 := by
  obtain ⟨n, hn⟩ := Nat.dvd_sub W.bytes_dvd K.pageOffset_aligned
  have hsum : K.pageOffset.toNat + n * W.bytes = 2 ^ W.bits := by
    rw [Nat.mul_comm, ← hn, Nat.add_sub_cancel' (Nat.le_of_lt K.pageOffset.isLt)]
  have hlt : ∀ i < n, K.pageOffset.toNat + i * W.bytes < 2 ^ W.bits := by
    intro i hi
    rw [← hsum]
    exact Nat.add_lt_add_left (Nat.mul_lt_mul_of_pos_right hi W.bytes_pos) _
  refine finds_iff.mpr ⟨n, BitVec.eq_of_toNat_eq ?_, hzero,
    fun i hi hhit => h ⟨entry K.pageOffset i, candidate_iff.mpr ⟨i, rfl, hhit, hlt i hi⟩⟩⟩
  rw [toNat_entry, hsum, Nat.mod_self]
  rfl

/-- The search is right just when there is a candidate, or else address 0 looks
like the table. -/
theorem searchCorrect_iff (K : Symbols W) (mem : Memory W) :
    SearchCorrect K mem ↔ (∃ a, Candidate K mem a) ∨ Hit K mem 0 := by
  constructor
  · rintro ⟨sct, hfinds, -, hnone⟩
    by_cases h : ∃ a, Candidate K mem a
    · exact .inl h
    · exact .inr ((hnone h).1 ▸ hfinds.hit)
  · intro hcond
    by_cases h : ∃ a, Candidate K mem a
    · obtain ⟨sct, hfinds, hsct⟩ := finds_of_candidate h
      exact ⟨sct, hfinds, fun _ => hsct, fun hnot => absurd h hnot⟩
    · refine ⟨0, finds_zero h (hcond.resolve_left h), fun hex => absurd hex h, fun _ => ?_⟩
      refine ⟨rfl, fun m cr0 => ?_⟩
      rw [interceptorStart, if_pos rfl]
      exact ⟨rfl, rfl⟩

/-- A memory of zeros has no table, and the search does not end. -/
theorem search_zeros : ¬ SearchCorrect linux32 fun _ => 0 := by
  rintro ⟨sct, hfinds, -⟩
  have hne : (0 : Word .w32) ≠ linux32.sysClose := by decide
  exact hne hfinds.hit

end Interceptor

end OperatingSystems
