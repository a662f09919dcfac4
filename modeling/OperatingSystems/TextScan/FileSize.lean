import OperatingSystems.TextScan.Merge

/-!
# File sizes and int

The two mapping readers keep the size of the file in an `int`, which `mmap` takes
as an unsigned length again, and return it as an `int`. `mmapRegularReadOf` and
`mmapReadOf` are these readers on a file of which only the size is known: they
say which offsets are scanned and what is returned. On a file whose size fits an
`int` the scanned offsets are those of the bytes that the readers scan.

From a size of `2 ^ 31` bytes on the number in the `int` is another one. It may be
negative or zero, and then the file cannot be mapped, but just above a multiple of
`2 ^ 32` it is a small positive number and only so many bytes are mapped.
-/

namespace OperatingSystems

namespace TextScan

/-- The conversion to `int`. -/
def toInt (n : ℤ) : ℤ := n.bmod (2 ^ 32)

/-- The conversion of an `int` to `size_t`. -/
def toSize (n : ℤ) : ℤ := n % 2 ^ 64

/-- The lengths with which `mmap` and `munmap` succeed. -/
structure Mapping where
  mmap : ℤ → Bool
  munmap : ℤ → Bool
  mmap_zero : mmap 0 = false
  mmap_large : ∀ length, 2 ^ 63 ≤ length → mmap length = false

/-- The ending of a reader and the offsets of the bytes that were scanned. -/
structure Outcome where
  ending : Ending
  scanned : List ℤ
  deriving DecidableEq, Repr

/-- The values of `i` in a loop from `byteFrom` to `byteTo`. -/
def offsets (byteFrom byteTo : ℤ) : List ℤ :=
  (List.range (byteTo + 1 - byteFrom).toNat).map fun k : ℕ => byteFrom + k

/-- The offsets that a worker scans. -/
def Msg.offsets (message : Msg) : List ℤ :=
  TextScan.offsets message.value1 message.value2

section Readers

variable (m : Mapping) (stSize : ℤ)

/-- What the two readers have in common: the file is mapped, scanned and
unmapped. -/
def mapAndScan (scanned : ℤ → List ℤ) : Outcome :=
  let fileSize := toInt stSize
  if m.mmap (toSize fileSize) then
    { ending := if m.munmap (toSize fileSize) then .returned (toInt stSize) else .exited
      scanned := scanned fileSize }
  else ⟨.exited, []⟩

/-- `mmap_regular_read`. -/
def mmapRegularReadOf : Outcome :=
  mapAndScan m stSize fun fileSize => offsets 0 (fileSize - 1)

/-- `mmap_read`, where each worker scans its range. -/
def mmapReadOf (numberOfThreads : ThreadCount) : Outcome :=
  mapAndScan m stSize fun fileSize => (requests numberOfThreads fileSize).flatMap Msg.offsets

/-- The run ends with an error, or every byte of the file has been scanned once
and the size is returned. -/
def WholeOrExit (o : Outcome) : Prop :=
  o.ending = .exited ∨
    o.ending = .returned stSize ∧ o.scanned.Perm (offsets 0 (stSize - 1))

end Readers

section Offsets

theorem offsets_natCast (a b : ℕ) :
    offsets a (a + b - 1) = (List.range b).map fun k : ℕ => (a : ℤ) + k := by
  have hlen : ((a : ℤ) + b - 1 + 1 - a).toNat = b := by omega
  rw [offsets, hlen]

/-- A part of the loop over the whole file. -/
theorem take_drop_offsets {n a b : ℕ} (h : a + b ≤ n) :
    ((offsets 0 (n - 1)).drop a).take b = offsets a (a + b - 1) := by
  have hwhole := offsets_natCast 0 n
  rw [Nat.cast_zero, zero_add] at hwhole
  rw [hwhole, offsets_natCast, ← List.map_drop, ← List.map_take, List.range_eq_range',
    List.drop_range', List.take_range'_of_length_ge (by omega), List.range_eq_range']
  apply List.ext_getElem
  · simp
  · intro k hk hk'
    simp

variable {numberOfThreads : ThreadCount}

/-- The message for `count` bytes from `first` on. -/
def bytesFrom (first count : ℕ) : Msg := rangeMessage first (first + count - 1)

theorem offsets_bytesFrom (a b : ℕ) : (bytesFrom a b).offsets = offsets a (a + b - 1) := rfl

/-- The messages ask for the slices of `range` bytes, and the last for the rest. -/
theorem requests_eq {n r m : ℕ} (hr : r = n / numberOfThreads.val)
    (hm : m = numberOfThreads.val - 1) :
    requests numberOfThreads n =
      (List.range m).map (fun i => bytesFrom (i * r) r) ++ [bytesFrom (m * r) (n - m * r)] := by
  have hpos := numberOfThreads.pos
  have hsize : rangeSize numberOfThreads n = r := by rw [rangeSize, hr, Int.natCast_div]
  have hle : m * r ≤ n := by
    rw [hr]
    refine le_trans (Nat.mul_le_mul_right _ ?_) (Nat.mul_div_le n numberOfThreads.val)
    omega
  rw [requests, hsize, ← hm]
  congr 1
  · apply List.map_congr_left
    intro i _
    rw [bytesFrom]
    congr 1
    push_cast
    ring
  · rw [bytesFrom, Nat.cast_mul, Int.natCast_sub hle]
    congr 2
    · rw [show (numberOfThreads.val - 1 : ℤ) = (m : ℤ) by omega]
    · push_cast
      ring

/-- A message asks for a part of the file. -/
theorem exists_bytesFrom {n : ℕ} {message : Msg} (h : message ∈ requests numberOfThreads n) :
    ∃ a b, a + b ≤ n ∧ message = bytesFrom a b := by
  have hle := Nat.mul_div_le n numberOfThreads.val
  have hpos := numberOfThreads.pos
  rw [requests_eq rfl rfl] at h
  rcases List.mem_append.mp h with h | h
  · obtain ⟨i, hi, rfl⟩ := List.mem_map.mp h
    have hi := List.mem_range.mp hi
    refine ⟨_, _, ?_, rfl⟩
    rw [← Nat.succ_mul]
    refine le_trans (Nat.mul_le_mul_right _ ?_) hle
    omega
  · refine ⟨_, _, ?_, List.mem_singleton.mp h⟩
    have hrest : (numberOfThreads.val - 1) * (n / numberOfThreads.val) ≤ n :=
      le_trans (Nat.mul_le_mul_right _ (Nat.sub_le _ _)) hle
    omega

/-- The workers scan the offsets that the one loop scans, in the same order. -/
theorem flatMap_requests (n : ℕ) :
    (requests numberOfThreads n).flatMap Msg.offsets = offsets 0 (n - 1) := by
  obtain ⟨r, hr⟩ : ∃ r, r = n / numberOfThreads.val := ⟨_, rfl⟩
  obtain ⟨m, hm⟩ : ∃ m, m = numberOfThreads.val - 1 := ⟨_, rfl⟩
  have hle : ∀ i, i ≤ m → i * r ≤ n ∧ (i < m → i * r + r ≤ n) := by
    intro i hi
    have hall := Nat.mul_div_le n numberOfThreads.val
    rw [← hr] at hall
    refine ⟨le_trans (Nat.mul_le_mul_right r ?_) hall, fun hlt => ?_⟩
    · omega
    · rw [← Nat.succ_mul]
      refine le_trans (Nat.mul_le_mul_right r ?_) hall
      omega
  have hfirst : ((List.range m).map fun i => bytesFrom (i * r) r).flatMap Msg.offsets =
      (offsets 0 (n - 1)).take (m * r) := by
    rw [← flatten_slices, slices, List.flatMap_def, List.map_map]
    congr 1
    apply List.map_congr_left
    intro i hi
    have hi := List.mem_range.mp hi
    rw [take_drop_offsets ((hle i (le_of_lt hi)).2 hi)]
    rfl
  have hrest : (bytesFrom (m * r) (n - m * r)).offsets = (offsets 0 (n - 1)).drop (m * r) := by
    have hmr := (hle m le_rfl).1
    rw [offsets_bytesFrom, ← take_drop_offsets (n := n) (by omega)]
    exact List.take_of_length_le (by simp [offsets])
  rw [requests_eq hr hm, List.flatMap_append, List.flatMap_singleton, hfirst, hrest,
    List.take_append_drop]

end Offsets

section Bytes

variable {file : File}

/-- The byte at an offset. -/
def File.byteAt (file : File) (i : ℤ) : UInt8 := file.bytes.getD i.toNat 0

/-- The bytes of a range of the file are those at its offsets. -/
theorem bytesBetween_eq_map (file : File) {a b : ℕ} (h : a + b ≤ file.bytes.length) :
    bytesBetween file.bytes a (a + b - 1) = (offsets a (a + b - 1)).map file.byteAt := by
  have hlen : ((a : ℤ) + b - 1 + 1 - a).toNat = b := by omega
  rw [offsets_natCast, bytesBetween, hlen, Int.toNat_natCast]
  apply List.ext_getElem
  · simp
    omega
  · intro k hk hk'
    simp only [List.length_map, List.length_range] at hk'
    have hsum : ((a : ℤ) + k).toNat = a + k := by omega
    have hlt : a + k < file.bytes.length := by omega
    simp [File.byteAt, hsum, hlt]

theorem bytes_eq_map : file.bytes = (offsets 0 (file.size - 1)).map file.byteAt := by
  have h := bytesBetween_eq_map file (a := 0) (b := file.bytes.length) (by omega)
  rw [Nat.cast_zero, zero_add] at h
  rw [File.size, ← h, bytesBetween]
  simp

/-- A worker scans the bytes at the offsets of its message. -/
theorem bytes_of_mem_requests {numberOfThreads : ThreadCount} {message : Msg}
    (h : message ∈ requests numberOfThreads file.size) :
    message.bytes file.bytes = message.offsets.map file.byteAt := by
  obtain ⟨a, b, hle, rfl⟩ := exists_bytesFrom h
  exact bytesBetween_eq_map file hle

end Bytes

section Narrowing

variable {m : Mapping} {stSize : ℤ}

theorem toInt_of_lt (h1 : 1 ≤ stSize) (h : stSize < 2 ^ 31) : toInt stSize = stSize :=
  Int.bmod_eq_of_le_mul_two (by push_cast; omega) (by push_cast; omega)

theorem toInt_lt (stSize : ℤ) : toInt stSize < 2 ^ 31 := by
  have h := Int.bmod_lt (x := stSize) (m := 2 ^ 32) (by omega)
  unfold toInt
  omega

/-- `mmap` is called with zero or with a length from `2 ^ 63` on exactly when the
`int` is not positive. -/
theorem toSize_toInt_iff :
    (toSize (toInt stSize) = 0 ∨ 2 ^ 63 ≤ toSize (toInt stSize)) ↔ toInt stSize ≤ 0 := by
  have hlt := toInt_lt stSize
  have hle := Int.le_bmod (x := stSize) (m := 2 ^ 32) (by omega)
  have hlow : -2 ^ 31 ≤ toInt stSize := by
    unfold toInt
    omega
  unfold toSize
  omega

/-- The `int` is not positive when the last 32 bits of the size are zero or begin
with a one. -/
theorem toInt_nonpos_iff :
    toInt stSize ≤ 0 ↔ stSize % 2 ^ 32 = 0 ∨ 2 ^ 31 ≤ stSize % 2 ^ 32 := by
  unfold toInt
  rw [Int.bmod_def]
  split_ifs <;> omega

/-- Only a positive `int` lets `mmap` succeed. -/
theorem Mapping.pos_of_mmap (h : m.mmap (toSize (toInt stSize)) = true) : 0 < toInt stSize := by
  by_contra hle
  rcases toSize_toInt_iff.mpr (not_lt.mp hle) with hzero | hlarge
  · rw [hzero, m.mmap_zero] at h
    contradiction
  · rw [m.mmap_large _ hlarge] at h
    contradiction

variable (m) {scanned : ℤ → List ℤ}

/-- A reader that scans all it has mapped succeeds with the whole file, or fails,
exactly when the size fits an `int`, or the file cannot be mapped or unmapped. -/
theorem wholeOrExit_mapAndScan_iff (h1 : 1 ≤ stSize)
    (hscan : ∀ n : ℕ, (scanned n).Perm (offsets 0 (n - 1))) :
    WholeOrExit stSize (mapAndScan m stSize scanned) ↔
      stSize < 2 ^ 31 ∨ m.mmap (toSize (toInt stSize)) = false ∨
        m.munmap (toSize (toInt stSize)) = false := by
  unfold WholeOrExit mapAndScan
  cases hmap : m.mmap (toSize (toInt stSize)) with
  | false => simp [hmap]
  | true =>
      cases hunmap : m.munmap (toSize (toInt stSize)) with
      | false => simp [hmap, hunmap]
      | true =>
          have hpos := m.pos_of_mmap hmap
          simp only [hmap, hunmap, if_true, reduceCtorEq, Ending.returned.injEq, false_or, or_false]
          constructor
          · rintro ⟨heq, -⟩
            rw [← heq]
            exact toInt_lt _
          · intro hlt
            refine ⟨toInt_of_lt h1 hlt, ?_⟩
            have hn := hscan stSize.toNat
            rw [toInt_of_lt h1 hlt]
            rwa [Int.toNat_of_nonneg (by omega)] at hn

theorem wholeOrExit_mmapRegularReadOf (h1 : 1 ≤ stSize) :
    WholeOrExit stSize (mmapRegularReadOf m stSize) ↔
      stSize < 2 ^ 31 ∨ m.mmap (toSize (toInt stSize)) = false ∨
        m.munmap (toSize (toInt stSize)) = false :=
  wholeOrExit_mapAndScan_iff m h1 fun _ => List.Perm.refl _

theorem wholeOrExit_mmapReadOf (numberOfThreads : ThreadCount) (h1 : 1 ≤ stSize) :
    WholeOrExit stSize (mmapReadOf m stSize numberOfThreads) ↔
      stSize < 2 ^ 31 ∨ m.mmap (toSize (toInt stSize)) = false ∨
        m.munmap (toSize (toInt stSize)) = false :=
  wholeOrExit_mapAndScan_iff m h1 fun n => by rw [flatMap_requests]

end Narrowing

/-- Every length that can be mapped is mapped, and unmapped again. -/
def Mapping.all : Mapping where
  mmap := fun length => decide (length ≠ 0 ∧ length < 2 ^ 63)
  munmap := fun _ => true
  mmap_zero := rfl
  mmap_large := fun _ h => decide_eq_false fun hand => absurd hand.2 (not_lt.mpr h)

theorem Mapping.mmap_all (stSize : ℤ) :
    Mapping.all.mmap (toSize (toInt stSize)) = false ↔ toInt stSize ≤ 0 := by
  rw [← toSize_toInt_iff]
  simp only [Mapping.all, decide_eq_false_iff_not, not_and_or, not_not, not_lt]

/-- On a file whose size fits an `int` these are the readers of `Scan`. -/
theorem mmapRegularRead_eq (text : UInt8 → Bool) (file : File) (r : Counters) :
    mmapRegularRead text file r =
      ((mmapRegularReadOf Mapping.all file.size).ending,
        scan text r ((mmapRegularReadOf Mapping.all file.size).scanned.map file.byteAt)) := by
  by_cases hempty : file.bytes = []
  · have hzero : file.size = 0 := by rw [File.size, hempty]; rfl
    rw [mmapRegularRead, if_pos hempty, hzero]
    rfl
  · have hlen := List.length_pos_of_ne_nil hempty
    have hsize := file.size_lt
    have hint : toInt file.size = file.size :=
      toInt_of_lt (by unfold File.size; omega) (by unfold File.size; omega)
    have hmap : Mapping.all.mmap (toSize file.size) = true := by
      have h := Mapping.mmap_all file.size
      rw [hint] at h
      refine Bool.of_not_eq_false fun hno => ?_
      have hle := h.mp hno
      unfold File.size at hle
      omega
    rw [mmapRegularRead, if_neg hempty, mmapRegularReadOf, mapAndScan]
    simp only [hint, hmap, if_true, ← bytes_eq_map]
    rfl

/-- Both readers fail or succeed with the whole file, whatever else `mmap`
refuses, exactly for the sizes below `2 ^ 31` and for those whose last 32 bits
are zero or begin with a one. -/
theorem wholeOrExit_iff {stSize : ℤ} (h1 : 1 ≤ stSize) (numberOfThreads : ThreadCount) :
    (∀ m, WholeOrExit stSize (mmapRegularReadOf m stSize) ∧
        WholeOrExit stSize (mmapReadOf m stSize numberOfThreads)) ↔
      stSize < 2 ^ 31 ∨ stSize % 2 ^ 32 = 0 ∨ 2 ^ 31 ≤ stSize % 2 ^ 32 := by
  simp only [wholeOrExit_mmapRegularReadOf _ h1, wholeOrExit_mmapReadOf _ _ h1, and_self]
  constructor
  · intro hall
    refine (hall Mapping.all).imp_right fun hfail => toInt_nonpos_iff.mp ?_
    refine (Mapping.mmap_all _).mp (hfail.resolve_right ?_)
    simp [Mapping.all]
  · rintro (hlt | hbits) m
    · exact .inl hlt
    · right
      left
      by_contra hmap
      have hpos := m.pos_of_mmap (Bool.of_not_eq_false hmap)
      exact absurd (toInt_nonpos_iff.mpr hbits) (not_le.mpr hpos)

/-- A file of `2 ^ 31` bytes cannot be mapped. -/
theorem wholeOrExit_iff_twoGiB :
    WholeOrExit (2 ^ 31) (mmapRegularReadOf Mapping.all (2 ^ 31)) ∧
      WholeOrExit (2 ^ 31) (mmapReadOf Mapping.all (2 ^ 31) ⟨1, by decide, by decide⟩) :=
  (wholeOrExit_iff (by decide) ⟨1, by decide, by decide⟩).mpr (by decide) Mapping.all

/-- Of a file of `2 ^ 32 + 1` bytes one byte is scanned, and the run succeeds. -/
theorem not_wholeOrExit_fourGiB :
    mmapRegularReadOf Mapping.all (2 ^ 32 + 1) = ⟨.returned 1, [0]⟩ ∧
      mmapReadOf Mapping.all (2 ^ 32 + 1) ⟨1, by decide, by decide⟩ = ⟨.returned 1, [0]⟩ ∧
      ¬ ∀ stSize : ℤ, 1 ≤ stSize → stSize < 2 ^ 63 → ∀ m numberOfThreads,
        WholeOrExit stSize (mmapRegularReadOf m stSize) ∧
          WholeOrExit stSize (mmapReadOf m stSize numberOfThreads) := by
  have hregular : mmapRegularReadOf Mapping.all (2 ^ 32 + 1) = ⟨.returned 1, [0]⟩ := by decide
  refine ⟨hregular, by decide, fun hall => ?_⟩
  have h := (hall (2 ^ 32 + 1) (by decide) (by decide) Mapping.all
    ⟨1, by decide, by decide⟩).1
  rw [hregular] at h
  rcases h with h | ⟨h, -⟩
  · contradiction
  · exact absurd (Ending.returned.inj h) (by decide)

end TextScan

end OperatingSystems
