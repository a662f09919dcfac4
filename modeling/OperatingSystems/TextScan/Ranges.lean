import Mathlib.Tactic.Ring
import OperatingSystems.TextScan.Worker

/-!
# The ranges of mmap_read

`mmap_read` divides the file by the number of threads. Each worker but the last
gets a range of that many bytes and the last one gets the rest. The pieces of
the file in these ranges make up the file again, and when the quotient is zero
all pieces but the last are empty.
-/

namespace OperatingSystems

namespace TextScan

/-- A number of threads that `main` accepts. -/
structure ThreadCount where
  val : ℕ
  pos : 1 ≤ val
  le : val ≤ 16

/-- Two threads. -/
def twoThreads : ThreadCount := ⟨2, by decide, by decide⟩

section Split

variable (numberOfThreads : ThreadCount) (fileSize : ℤ)

/-- `range`. -/
def rangeSize : ℤ := fileSize / numberOfThreads.val

/-- A `RANGE` message of the parent. Its last two values are not set and the
worker does not read them. -/
def rangeMessage (byteFrom byteTo : ℤ) : Msg where
  iFrom := 0
  type := .range
  value1 := byteFrom
  value2 := byteTo
  value3 := 0
  value4 := 0

/-- The `RANGE` messages, in the order of the workers. -/
def requests : List Msg :=
  ((List.range (numberOfThreads.val - 1)).map fun i : ℕ =>
    rangeMessage ((i : ℤ) * rangeSize numberOfThreads fileSize)
      (((i : ℤ) + 1) * rangeSize numberOfThreads fileSize - 1)) ++
  [rangeMessage ((numberOfThreads.val - 1) * rangeSize numberOfThreads fileSize) (fileSize - 1)]

end Split

/-- The bytes of the ranges. -/
def pieces (numberOfThreads : ThreadCount) (file : File) : List (List UInt8) :=
  (requests numberOfThreads file.size).map (Msg.bytes · file.bytes)

/-- An empty piece comes only after empty pieces. -/
def EmptyFirst {α : Type*} (pieces : List (List α)) : Prop :=
  ∀ before piece, before ++ [piece] <+: pieces → piece = [] → before.flatten = []

section Slices

variable {α : Type*} (r m : ℕ) (l : List α)

/-- The first `m` slices of `r` letters. -/
def slices : List (List α) := (List.range m).map fun i => (l.drop (i * r)).take r

theorem flatten_slices : (slices r m l).flatten = l.take (m * r) := by
  unfold slices
  induction m with
  | zero => simp
  | succ m ih =>
      rw [List.range_succ, List.map_append, List.flatten_append, ih, Nat.succ_mul, List.take_add]
      simp

variable {r m l}

theorem length_of_mem_slices (h : m * r ≤ l.length) {piece : List α}
    (hpiece : piece ∈ slices r m l) : piece.length = r := by
  obtain ⟨i, hi, rfl⟩ := List.mem_map.mp hpiece
  have hle : (i + 1) * r ≤ m * r := Nat.mul_le_mul_right r (List.mem_range.mp hi)
  rw [Nat.succ_mul] at hle
  rw [List.length_take, List.length_drop]
  omega

/-- The slices and a rest that is not shorter than a slice: all are empty but
the last, or none is. -/
theorem emptyFirst_slices (h : m * r + r ≤ l.length) :
    EmptyFirst (slices r m l ++ [l.drop (m * r)]) := by
  intro before piece hpre hnil
  have hslices := fun p (hp : p ∈ slices r m l) =>
    length_of_mem_slices (le_trans (Nat.le_add_right _ _) h) hp
  by_cases hzero : r = 0
  · have hbefore : before <+: slices r m l := by
      have hlen := hpre.length_le
      rw [List.length_append, List.length_append, List.length_singleton,
        List.length_singleton] at hlen
      apply List.prefix_of_prefix_length_le ((List.prefix_append _ _).trans hpre)
        (List.prefix_append _ _)
      omega
    apply List.flatten_eq_nil_iff.mpr
    intro p hp
    exact List.length_eq_zero_iff.mp ((hslices p (hbefore.subset hp)).trans hzero)
  · have hlen := congrArg List.length hnil
    rw [List.length_nil] at hlen
    rcases List.mem_append.mp (hpre.subset (List.mem_append_right _ List.mem_cons_self))
      with hmem | hmem
    · exact absurd ((hslices piece hmem).symm.trans hlen) hzero
    · rw [List.mem_singleton.mp hmem, List.length_drop] at hlen
      omega

end Slices

section Pieces

variable {numberOfThreads : ThreadCount} {file : File}

theorem rangeSize_eq :
    rangeSize numberOfThreads file.size =
      ((file.bytes.length / numberOfThreads.val : ℕ) : ℤ) := by
  rw [rangeSize, File.size, Int.natCast_div]

/-- The pieces are the slices of `range` bytes, and the rest. -/
theorem pieces_eq {r m : ℕ} (hr : r = file.bytes.length / numberOfThreads.val)
    (hm : m = numberOfThreads.val - 1) :
    pieces numberOfThreads file = slices r m file.bytes ++ [file.bytes.drop (m * r)] := by
  have hpos := numberOfThreads.pos
  rw [pieces, requests, rangeSize_eq, ← hr, ← hm, List.map_append, List.map_map,
    List.map_singleton]
  congr 1
  · apply List.map_congr_left
    intro i _
    have hfrom : ((i : ℤ) * (r : ℤ)).toNat = i * r := by
      rw [← Int.natCast_mul, Int.toNat_natCast]
    have hlen : (((i : ℤ) + 1) * r - 1 + 1 - i * r).toNat = r := by
      rw [show ((i : ℤ) + 1) * r - 1 + 1 - i * r = r by ring, Int.toNat_natCast]
    simp only [Function.comp_apply, Msg.bytes, rangeMessage, bytesBetween, hfrom, hlen]
  · have hcast : (numberOfThreads.val - 1 : ℤ) * (r : ℤ) = ((m * r : ℕ) : ℤ) := by
      rw [Int.natCast_mul, show (numberOfThreads.val - 1 : ℤ) = (m : ℤ) by omega]
    simp only [Msg.bytes, rangeMessage, bytesBetween, hcast, Int.toNat_natCast, File.size]
    rw [List.take_of_length_le]
    rw [List.length_drop]
    omega

variable (numberOfThreads file)

/-- The pieces make up the file. -/
theorem flatten_pieces : (pieces numberOfThreads file).flatten = file.bytes := by
  rw [pieces_eq rfl rfl, List.flatten_append, flatten_slices, List.flatten_singleton,
    List.take_append_drop]

theorem emptyFirst_pieces : EmptyFirst (pieces numberOfThreads file) := by
  rw [pieces_eq rfl rfl]
  apply emptyFirst_slices
  rw [← Nat.succ_mul, Nat.succ_eq_add_one, Nat.sub_add_cancel numberOfThreads.pos]
  exact Nat.mul_div_le _ _

end Pieces

end TextScan

end OperatingSystems
