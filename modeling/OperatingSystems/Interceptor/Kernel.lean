import Mathlib.Algebra.Group.Nat.Defs
import Mathlib.Data.Int.Basic
import Mathlib.Logic.Function.Basic
import OperatingSystems.Patch.Store

/-!
# The interceptor modules

`openclose`, `intercept` and `module` are kernel modules that put handlers of
their own into the system call table. They share their code but for the entries
they replace: `interceptor_start` looks for the table, keeps the handlers it
finds there and overwrites them, and `interceptor_end` writes them back.

An `unsigned long` and a pointer have 32 or 64 bits, and their arithmetic wraps
around. The memory is taken word by word, at word-aligned addresses.
-/

namespace OperatingSystems

namespace Interceptor

inductive WordSize
  | w32
  | w64
deriving DecidableEq

def WordSize.bits : WordSize → ℕ
  | .w32 => 32
  | .w64 => 64

/-- `sizeof(void *)`. -/
def WordSize.bytes : WordSize → ℕ
  | .w32 => 4
  | .w64 => 8

theorem WordSize.bytes_pos (W : WordSize) : 0 < W.bytes := by
  cases W <;> exact Nat.succ_pos _

/-- `unsigned long`, and the address in a pointer. -/
abbrev Word (W : WordSize) := BitVec W.bits

/-- The word at every address. -/
abbrev Memory (W : WordSize) := Word W → Word W

/-- The files that the three modules are built from. -/
inductive KernelModule
  | openclose
  | intercept
  | module
deriving DecidableEq

variable {W : WordSize}

def Aligned (a : Word W) : Prop :=
  W.bytes ∣ a.toNat

instance (a : Word W) : Decidable (Aligned a) :=
  inferInstanceAs (Decidable (_ ∣ _))

/-- The address of `sct[n]`. -/
def entry (sct : Word W) (n : ℕ) : Word W :=
  sct + BitVec.ofNat W.bits (n * W.bytes)

/-- What the kernel and the modules are linked with: the numbers `__NR_open`,
`__NR_close`, `__NR_cs3013_syscall1` and `__NR_cs3013_syscall2`, the address of
`sys_close`, and those of the modules' own handlers, which are other functions.
-/
structure Symbols (W : WordSize) where
  pageOffset : Word W
  nrOpen : ℕ
  nrClose : ℕ
  nrSyscall1 : ℕ
  nrSyscall2 : ℕ
  sysClose : Word W
  /-- `new_sys_cs3013_syscall1` of `openclose`. -/
  newOpen : Word W
  /-- `new_sys_cs3013_syscall2` of `openclose`. -/
  newClose : Word W
  /-- `new_sys_cs3013_syscall1` of `module`. -/
  newSyscall1 : Word W
  /-- `new_sys_cs3013_syscall2` of `intercept`. -/
  newSyscall2 : Word W
  pageOffset_aligned : Aligned pageOffset
  numbers_nodup : [nrOpen, nrClose, nrSyscall1, nrSyscall2].Nodup
  numbers_fit : ∀ n ∈ [nrOpen, nrClose, nrSyscall1, nrSyscall2], n * W.bytes < 2 ^ W.bits
  sysClose_notMem : sysClose ∉ [newOpen, newClose, newSyscall1, newSyscall2]

/-- The entries that a module replaces, and its handlers for them. -/
def Symbols.hooks (K : Symbols W) : KernelModule → List (ℕ × Word W)
  | .openclose => [(K.nrOpen, K.newOpen), (K.nrClose, K.newClose)]
  | .intercept => [(K.nrSyscall2, K.newSyscall2)]
  | .module => [(K.nrSyscall1, K.newSyscall1)]

/-- A 32-bit kernel with the numbers that the tests of the modules use. -/
def linux32 : Symbols .w32 where
  pageOffset := 0xC0000000
  nrOpen := 5
  nrClose := 6
  nrSyscall1 := 349
  nrSyscall2 := 350
  sysClose := 0xC0101000
  newOpen := 0xE0000000
  newClose := 0xE0000100
  newSyscall1 := 0xE0010000
  newSyscall2 := 0xE0020000
  pageOffset_aligned := by decide
  numbers_nodup := by decide
  numbers_fit := by decide
  sysClose_notMem := by decide

/-- What the modules change of the machine. -/
structure Kernel (W : WordSize) where
  mem : Memory W
  cr0 : Word W

namespace Kernel

variable (k : Kernel W)

/-- `write_cr0 (read_cr0 () & (~ 0x10000))`. -/
def disablePageProtection : Kernel W :=
  { k with cr0 := k.cr0 &&& ~~~ BitVec.ofNat W.bits 0x10000 }

/-- `write_cr0 (read_cr0 () | 0x10000)`. -/
def enablePageProtection : Kernel W :=
  { k with cr0 := k.cr0 ||| BitVec.ofNat W.bits 0x10000 }

/-- `sct[n] = value` for one entry after the other. -/
def writeEntries (sct : Word W) (entries : List (ℕ × Word W)) : Kernel W :=
  { k with mem := entries.foldl (fun mem e => Function.update mem (entry sct e.1) e.2) k.mem }

end Kernel

/-- The variables of a module: `sys_call_table`, and the `ref_sys_` pointers
with the numbers of the entries they were read from. -/
structure Data (W : WordSize) where
  sysCallTable : Word W
  refs : List (ℕ × Word W)

/-- The variables of a module that has just been brought into the kernel. -/
def Symbols.zeroData (K : Symbols W) (m : KernelModule) : Data W where
  sysCallTable := 0
  refs := (K.hooks m).map fun h => (h.1, 0)

/-- `ULLONG_MAX`. -/
def ullongMax : ℕ := 2 ^ 64 - 1

/-- The loop of `find_sys_call_table` from `offset` on, for at most `fuel`
passes: `none` as long as it is still looking. -/
def findFrom (K : Symbols W) (mem : Memory W) : ℕ → Word W → Option (Word W)
  | 0, _ => none
  | fuel + 1, offset =>
    if offset.toNat < ullongMax then
      if mem (entry offset K.nrClose) = K.sysClose then some offset
      else findFrom K mem fuel (offset + BitVec.ofNat W.bits W.bytes)
    else some 0

def findSysCallTable (K : Symbols W) (mem : Memory W) (fuel : ℕ) : Option (Word W) :=
  findFrom K mem fuel K.pageOffset

/-- `find_sys_call_table` returns `sct`, which may be `NULL`. -/
def Finds (K : Symbols W) (mem : Memory W) (sct : Word W) : Prop :=
  ∃ fuel, findSysCallTable K mem fuel = some sct

/-- `interceptor_start` with what its search returns, and the value it returns. -/
def interceptorStart (K : Symbols W) (m : KernelModule) (found : Word W) (k : Kernel W) :
    ℤ × Data W × Kernel W :=
  if found = 0 then (-1, K.zeroData m, k)
  else
    (0, { sysCallTable := found
          refs := (K.hooks m).map fun h => (h.1, k.mem (entry found h.1)) },
      (k.disablePageProtection.writeEntries found (K.hooks m)).enablePageProtection)

def interceptorEnd (d : Data W) (k : Kernel W) : Kernel W :=
  if d.sysCallTable = 0 then k
  else (k.disablePageProtection.writeEntries d.sysCallTable d.refs).enablePageProtection

/-- A table and its entries as addresses and words. -/
def located (sct : Word W) (entries : List (ℕ × Word W)) : List (Word W × Word W) :=
  entries.map fun e => (entry sct e.1, e.2)

@[simp] theorem mem_writeEntries (k : Kernel W) (sct : Word W) (entries : List (ℕ × Word W)) :
    (k.writeEntries sct entries).mem = Patch.apply (located sct entries) k.mem := by
  simp only [Kernel.writeEntries, Patch.apply, located, List.foldl_map]

@[simp] theorem cr0_writeEntries (k : Kernel W) (sct : Word W) (entries : List (ℕ × Word W)) :
    (k.writeEntries sct entries).cr0 = k.cr0 := rfl

@[simp] theorem mem_disablePageProtection (k : Kernel W) :
    k.disablePageProtection.mem = k.mem := rfl

@[simp] theorem mem_enablePageProtection (k : Kernel W) :
    k.enablePageProtection.mem = k.mem := rfl

theorem protection_eq_twoPow (W : WordSize) :
    BitVec.ofNat W.bits 0x10000 = BitVec.twoPow W.bits 16 := by
  cases W <;> rfl

/-- Bit 16 is off while the table is written, so that the write goes through. -/
theorem protection_writeEntries (k : Kernel W) (sct : Word W) (entries : List (ℕ × Word W)) :
    (k.disablePageProtection.writeEntries sct entries).cr0.getLsbD 16 = false := by
  change (k.cr0 &&& ~~~ BitVec.ofNat W.bits 0x10000).getLsbD 16 = false
  rw [BitVec.getLsbD_and, BitVec.getLsbD_not, protection_eq_twoPow, BitVec.getLsbD_twoPow]
  simp

/-- Bit 16 is set again after the table has been written. -/
theorem enable_disable (k : Kernel W) (sct : Word W) (entries : List (ℕ × Word W))
    (hk : k.cr0.getLsbD 16 = true) :
    (k.disablePageProtection.writeEntries sct entries).enablePageProtection.cr0 = k.cr0 := by
  change (k.cr0 &&& ~~~ BitVec.ofNat W.bits 0x10000) ||| BitVec.ofNat W.bits 0x10000 = k.cr0
  refine BitVec.eq_of_getLsbD_eq fun i hi => ?_
  rw [BitVec.getLsbD_or, BitVec.getLsbD_and, BitVec.getLsbD_not, protection_eq_twoPow,
    BitVec.getLsbD_twoPow]
  by_cases h16 : 16 = i
  · subst h16
    simp [hk, hi]
  · simp [h16, hi]

/-- The entries of a table below the size of the address space lie at different
addresses. -/
theorem entry_inj (sct : Word W) {n n' : ℕ} (hn : n * W.bytes < 2 ^ W.bits)
    (hn' : n' * W.bytes < 2 ^ W.bits) : entry sct n = entry sct n' ↔ n = n' := by
  constructor
  · intro h
    have hnat := congrArg BitVec.toNat ((BitVec.add_right_inj sct).mp h)
    rw [BitVec.toNat_ofNat, BitVec.toNat_ofNat, Nat.mod_eq_of_lt hn, Nat.mod_eq_of_lt hn'] at hnat
    exact Nat.eq_of_mul_eq_mul_right W.bytes_pos hnat
  · intro h
    rw [h]

end Interceptor

end OperatingSystems
