import OperatingSystems.Addem.Overflow
import OperatingSystems.Interval.Tiling
import OperatingSystems.TextScan.Ranges

/-!
# The ranges of the workers

The divisions that `main` of addem and `mmap_read` of proj4 make, for any number of
workers. Both give every worker but the last one the same number of values or bytes,
and the last one the rest: the ranges lie end to end. With more workers than values
all but the last range are empty. None of the operations overflows an `int`.
-/

namespace OperatingSystems

namespace Workers

open OperatingSystems.Addem (IsInt int int_of_isInt isInt_iff)
open OperatingSystems.Interval

section Code

variable (numberOfThreads : ℕ)

/-- The bounds in the `RANGE` messages of proj4, in the order of the workers. -/
def byteRanges (fileSize : ℤ) : List (ℤ × ℤ) :=
  let range := fileSize.tdiv numberOfThreads
  ((List.range (numberOfThreads - 1)).map fun i : ℕ =>
    ((i : ℤ) * range, ((i : ℤ) + 1) * range - 1)) ++
  [(((numberOfThreads : ℤ) - 1) * range, fileSize - 1)]

/-- The bounds in the `RANGE` messages of addem. -/
def valueRanges (maxValue : ℤ) : List (ℤ × ℤ) :=
  let range := maxValue.tdiv numberOfThreads
  ((List.range (numberOfThreads - 1)).map fun i : ℕ =>
    ((i : ℤ) * range + 1, ((i : ℤ) + 1) * range)) ++
  [(((numberOfThreads : ℤ) - 1) * range + 1, maxValue)]

/-- The bounds for worker `i + 1` of proj4, with the operations on `int`. -/
def intByteRange (range : ℤ) (i : ℕ) : Option (ℤ × ℤ) := do
  let value1 ← int (i * range)
  let next ← int (i + 1)
  let behind ← int (next * range)
  let value2 ← int (behind - 1)
  return (value1, value2)

/-- The bounds for worker `i + 1` of addem. -/
def intValueRange (range : ℤ) (i : ℕ) : Option (ℤ × ℤ) := do
  let before ← int (i * range)
  let value1 ← int (before + 1)
  let next ← int (i + 1)
  let value2 ← int (next * range)
  return (value1, value2)

/-- `byteRanges`, with the operations on `int`. -/
def intByteRanges (fileSize : ℤ) : Option (List (ℤ × ℤ)) := do
  let range ← int (fileSize.tdiv numberOfThreads)
  let others ← int (numberOfThreads - 1)
  let ranges ← (List.range (numberOfThreads - 1)).mapM (intByteRange range)
  let value1 ← int (others * range)
  let value2 ← int (fileSize - 1)
  return ranges ++ [(value1, value2)]

/-- `valueRanges`, with the operations on `int`. -/
def intValueRanges (maxValue : ℤ) : Option (List (ℤ × ℤ)) := do
  let range ← int (maxValue.tdiv numberOfThreads)
  let others ← int (numberOfThreads - 1)
  let ranges ← (List.range (numberOfThreads - 1)).mapM (intValueRange range)
  let before ← int (others * range)
  let value1 ← int (before + 1)
  return ranges ++ [(value1, maxValue)]

end Code

section Tiling

variable {range m size : ℕ}

/-- A range of `range` numbers for each of `m` workers and the rest for another one,
from the number `start` on. -/
def rangesFrom (start : ℤ) (range m size : ℕ) : List (ℤ × ℤ) :=
  ((List.range m).map fun i : ℕ =>
    ((i : ℤ) * range + start, ((i : ℤ) + 1) * range + start - 1)) ++
  [((m : ℤ) * range + start, size + start - 1)]

theorem tiles_rangesFrom (start : ℤ) (h : m * range ≤ size) :
    Tiles start (rangesFrom start range m size) (size + start - 1) := by
  have hascending : ∀ i : ℕ, (i : ℤ) * range + start ≤ ((i + 1 : ℕ) : ℤ) * range + start := by
    intro i
    push_cast
    rw [add_mul, one_mul]
    omega
  have hfirst := tiles_cuts hascending m
  have hlast : (m : ℤ) * range ≤ size := by exact_mod_cast h
  have hrest : Tiles ((m : ℤ) * range + start) [((m : ℤ) * range + start, size + start - 1)]
      (size + start - 1) := tiles_singleton (r := (_, _)) (by dsimp only; omega)
  rw [← Int.sub_add_cancel ((m : ℤ) * range + start) 1] at hrest
  have happend := hfirst.append hrest
  simpa [rangesFrom] using happend

theorem length_rangesFrom (start : ℤ) : (rangesFrom start range m size).length = m + 1 := by
  simp [rangesFrom]

theorem empty_of_mem_take {start : ℤ} {r : ℤ × ℤ}
    (h : r ∈ (rangesFrom start 0 m size).take m) : r.2 < r.1 := by
  rw [rangesFrom, List.take_left' (by simp)] at h
  obtain ⟨i, -, rfl⟩ := List.mem_map.mp h
  simp

end Tiling

section Division

variable {numberOfThreads size : ℕ}

theorem tdiv_natCast (size numberOfThreads : ℕ) :
    (size : ℤ).tdiv numberOfThreads = (size / numberOfThreads : ℕ) := by
  rw [Int.tdiv_eq_ediv_of_nonneg (Int.natCast_nonneg _), Int.natCast_div]

theorem mul_range_le (h : 1 ≤ numberOfThreads) (size : ℕ) :
    (numberOfThreads - 1) * (size / numberOfThreads) + size / numberOfThreads ≤ size := by
  rw [← Nat.succ_mul, Nat.succ_eq_add_one, Nat.sub_add_cancel h]
  exact Nat.mul_div_le _ _

theorem byteRanges_eq (h : 1 ≤ numberOfThreads) (size : ℕ) :
    byteRanges numberOfThreads size =
      rangesFrom 0 (size / numberOfThreads) (numberOfThreads - 1) size := by
  rw [byteRanges, rangesFrom, tdiv_natCast, Nat.cast_sub h]
  simp

theorem valueRanges_eq (h : 1 ≤ numberOfThreads) (size : ℕ) :
    valueRanges numberOfThreads size =
      rangesFrom 1 (size / numberOfThreads) (numberOfThreads - 1) size := by
  rw [valueRanges, rangesFrom, tdiv_natCast, Nat.cast_sub h]
  simp

end Division

section Messages

/-- proj4 sends these ranges. -/
theorem requests_eq (numberOfThreads : TextScan.ThreadCount) (file : TextScan.File) :
    TextScan.requests numberOfThreads file.size =
      (byteRanges numberOfThreads.val file.size).map fun r =>
        TextScan.rangeMessage r.1 r.2 := by
  have hrange : file.size.tdiv numberOfThreads.val =
      TextScan.rangeSize numberOfThreads file.size :=
    Int.tdiv_eq_ediv_of_nonneg (Int.natCast_nonneg _)
  rw [TextScan.requests, byteRanges, hrange, List.map_append, List.map_map]
  rfl

/-- addem sends these ranges. -/
theorem map_request_eq (numberOfThreads : Addem.ThreadCount) (maxValue : ℤ) :
    (List.range' 1 numberOfThreads.val).map (Addem.request numberOfThreads maxValue) =
      (valueRanges numberOfThreads.val maxValue).map fun r =>
        Addem.rangeMessage r.1 r.2 := by
  obtain ⟨m, hm⟩ : ∃ m, numberOfThreads.val = m + 1 :=
    ⟨_, (Nat.sub_add_cancel numberOfThreads.pos).symm⟩
  have hlast : Addem.request numberOfThreads maxValue (1 + m) =
      Addem.rangeMessage ((numberOfThreads.val - 1) * Addem.range numberOfThreads maxValue + 1)
        maxValue := if_neg (by omega)
  have hfirst : ∀ i ∈ List.range m, Addem.request numberOfThreads maxValue (1 + i) =
      Addem.rangeMessage ((i : ℤ) * Addem.range numberOfThreads maxValue + 1)
        (((i : ℤ) + 1) * Addem.range numberOfThreads maxValue) := fun i hi => by
    have hi := List.mem_range.mp hi
    rw [Addem.request, if_pos (by omega)]
    push_cast
    rw [add_sub_cancel_left, add_comm (1 : ℤ)]
  have hworkers : List.range' 1 numberOfThreads.val = (List.range m).map (1 + ·) ++ [1 + m] := by
    rw [hm, List.range'_eq_map_range, List.range_succ, List.map_append, List.map_singleton]
  have hsub : numberOfThreads.val - 1 = m := by omega
  rw [valueRanges, hworkers, hsub, List.map_append, List.map_append, List.map_map, List.map_map,
    List.map_singleton, List.map_singleton, hlast]
  congr 1
  exact List.map_congr_left hfirst

end Messages

section Overflow

variable {numberOfThreads size : ℕ}

theorem mapM_eq_some {α β : Type*} {f : α → Option β} {g : α → β} {l : List α}
    (h : ∀ a ∈ l, f a = some (g a)) : l.mapM f = some (l.map g) := by
  induction l with
  | nil => rfl
  | cons a l ih =>
      rw [List.mapM_cons, h a List.mem_cons_self, ih fun b hb => h b (List.mem_cons_of_mem a hb)]
      rfl

/-- The bounds of the ranges, and the numbers next to them, are of type `int`. -/
theorem isInt_bounds (h : 1 ≤ numberOfThreads) (hsize : IsInt size) {i : ℕ}
    (hi : i ≤ numberOfThreads - 1) :
    IsInt ((i : ℤ) * (size / numberOfThreads : ℕ)) ∧
      IsInt ((i : ℤ) * (size / numberOfThreads : ℕ) + 1) ∧
      IsInt ((i : ℤ) * (size / numberOfThreads : ℕ) - 1) := by
  have hle := mul_range_le h size
  have hmul := Nat.mul_le_mul_right (size / numberOfThreads) hi
  rw [← Int.natCast_mul]
  generalize size / numberOfThreads = range at hle hmul ⊢
  -- a bound of `size` itself is behind a range that is not empty
  have hzero : range = 0 → i * range = 0 := by
    rintro rfl
    exact Nat.mul_zero i
  generalize i * range = bound at hmul hzero ⊢
  simp only [isInt_iff] at hsize ⊢
  omega

theorem isInt_range (h : 1 ≤ numberOfThreads) (hsize : IsInt size) :
    IsInt (size / numberOfThreads : ℕ) := by
  have hle := mul_range_le h size
  generalize size / numberOfThreads = range at hle ⊢
  simp only [isInt_iff] at hsize ⊢
  omega

theorem isInt_next (h : 1 ≤ numberOfThreads) (hthreads : IsInt numberOfThreads) {i : ℕ}
    (hi : i ≤ numberOfThreads - 1) : IsInt i := by
  simp only [isInt_iff] at hthreads ⊢
  omega

theorem intByteRange_eq (h : 1 ≤ numberOfThreads) (hthreads : IsInt numberOfThreads)
    (hsize : IsInt size) {i : ℕ} (hi : i < numberOfThreads - 1) :
    intByteRange (size / numberOfThreads : ℕ) i =
      some ((i : ℤ) * (size / numberOfThreads : ℕ),
        ((i : ℤ) + 1) * (size / numberOfThreads : ℕ) - 1) := by
  have hvalue1 := (isInt_bounds h hsize hi.le).1
  have hnext := isInt_next h hthreads hi
  obtain ⟨hbehind, -, hvalue2⟩ := isInt_bounds h hsize hi
  rw [Nat.cast_add_one] at hnext hbehind hvalue2
  simp only [intByteRange, Option.bind_eq_bind, Option.pure_def]
  rw [int_of_isInt hvalue1, Option.bind_some, int_of_isInt hnext, Option.bind_some,
    int_of_isInt hbehind, Option.bind_some, int_of_isInt hvalue2, Option.bind_some]

theorem intValueRange_eq (h : 1 ≤ numberOfThreads) (hthreads : IsInt numberOfThreads)
    (hsize : IsInt size) {i : ℕ} (hi : i < numberOfThreads - 1) :
    intValueRange (size / numberOfThreads : ℕ) i =
      some ((i : ℤ) * (size / numberOfThreads : ℕ) + 1,
        ((i : ℤ) + 1) * (size / numberOfThreads : ℕ)) := by
  obtain ⟨hbefore, hvalue1, -⟩ := isInt_bounds h hsize hi.le
  have hnext := isInt_next h hthreads hi
  have hvalue2 := (isInt_bounds h hsize hi).1
  rw [Nat.cast_add_one] at hnext hvalue2
  simp only [intValueRange, Option.bind_eq_bind, Option.pure_def]
  rw [int_of_isInt hbefore, Option.bind_some, int_of_isInt hvalue1, Option.bind_some,
    int_of_isInt hnext, Option.bind_some, int_of_isInt hvalue2, Option.bind_some]

/-- Nothing overflows in proj4. -/
theorem intByteRanges_eq (h : 1 ≤ numberOfThreads) (hthreads : IsInt numberOfThreads)
    (hsize : IsInt size) :
    intByteRanges numberOfThreads size = some (byteRanges numberOfThreads size) := by
  have hrange := isInt_range h hsize
  have hothers := isInt_next h hthreads (le_refl _)
  have hvalue1 := (isInt_bounds h hsize (le_refl _)).1
  have hvalue2 : IsInt ((size : ℤ) - 1) := by
    simp only [isInt_iff] at hsize ⊢
    omega
  have hmessages := mapM_eq_some fun i hi =>
    intByteRange_eq h hthreads hsize (List.mem_range.mp hi)
  rw [Nat.cast_sub h, Nat.cast_one] at hothers hvalue1
  simp only [intByteRanges, tdiv_natCast, Option.bind_eq_bind, Option.pure_def, Option.bind_some,
    int_of_isInt hrange, int_of_isInt hothers, int_of_isInt hvalue1, int_of_isInt hvalue2,
    hmessages, byteRanges]

/-- Nothing overflows in addem. -/
theorem intValueRanges_eq (h : 1 ≤ numberOfThreads) (hthreads : IsInt numberOfThreads)
    (hsize : IsInt size) :
    intValueRanges numberOfThreads size = some (valueRanges numberOfThreads size) := by
  have hrange := isInt_range h hsize
  have hothers := isInt_next h hthreads (le_refl _)
  obtain ⟨hbefore, hvalue1, -⟩ := isInt_bounds h hsize (le_refl _)
  have hmessages := mapM_eq_some fun i hi =>
    intValueRange_eq h hthreads hsize (List.mem_range.mp hi)
  rw [Nat.cast_sub h, Nat.cast_one] at hothers hbefore hvalue1
  simp only [intValueRanges, tdiv_natCast, Option.bind_eq_bind, Option.pure_def,
    Option.bind_some, int_of_isInt hrange, int_of_isInt hothers, int_of_isInt hbefore,
    int_of_isInt hvalue1, hmessages, valueRanges]

end Overflow

/-- What is asked of the division of `size` numbers from `first` to `last` among the
workers. A number of threads and a size that are no `int` are no input. -/
structure Sound (numberOfThreads size : ℕ) (ranges : List (ℤ × ℤ))
    (intRanges : Option (List (ℤ × ℤ))) (first last : ℤ) : Prop where
  length : ranges.length = numberOfThreads
  divides : Divides ranges first last
  empty : size < numberOfThreads → ∀ r ∈ ranges.take (numberOfThreads - 1), r.2 < r.1
  fits : IsInt numberOfThreads → IsInt size → intRanges = some ranges

theorem sound_rangesFrom {numberOfThreads size : ℕ} (h : 1 ≤ numberOfThreads) (start : ℤ)
    {intRanges : Option (List (ℤ × ℤ))}
    (hfits : IsInt numberOfThreads → IsInt size → intRanges =
      some (rangesFrom start (size / numberOfThreads) (numberOfThreads - 1) size)) :
    Sound numberOfThreads size
      (rangesFrom start (size / numberOfThreads) (numberOfThreads - 1) size) intRanges start
      (size + start - 1) where
  length := by
    rw [length_rangesFrom, Nat.sub_add_cancel h]
  divides := by
    refine (tiles_rangesFrom start ?_).divides fun hnil => ?_
    · exact (Nat.le_add_right _ _).trans (mul_range_le h size)
    · exact absurd (congrArg List.length hnil) (by simp [length_rangesFrom])
  empty := by
    intro hlt r hr
    rw [Nat.div_eq_of_lt hlt] at hr
    exact empty_of_mem_take hr
  fits := hfits

/-- For any number of threads the ranges of proj4 divide the bytes of a file and the
ranges of addem the numbers up to `maxValue`. With more threads all but the last are
empty, and for values of type `int` nothing overflows. -/
theorem ranges_sound (numberOfThreads size : ℕ) (h : 1 ≤ numberOfThreads) :
    Sound numberOfThreads size (byteRanges numberOfThreads size)
        (intByteRanges numberOfThreads size) 0 (size - 1) ∧
      Sound numberOfThreads size (valueRanges numberOfThreads size)
        (intValueRanges numberOfThreads size) 1 size := by
  have hbyte := sound_rangesFrom h 0 fun hthreads hsize =>
    (intByteRanges_eq h hthreads hsize).trans (congrArg some (byteRanges_eq h size))
  have hvalue := sound_rangesFrom h 1 fun hthreads hsize =>
    (intValueRanges_eq h hthreads hsize).trans (congrArg some (valueRanges_eq h size))
  rw [add_zero, ← byteRanges_eq h] at hbyte
  rw [add_sub_cancel_right, ← valueRanges_eq h] at hvalue
  exact ⟨hbyte, hvalue⟩

/-- Ten bytes and the numbers up to 10 for four workers. -/
theorem ranges_sound_four :
    Divides [(0, 1), (2, 3), (4, 5), (6, 9)] 0 9 ∧
      intValueRanges 4 10 = some [(1, 2), (3, 4), (5, 6), (7, 10)] := by
  have h := ranges_sound 4 10 (by decide)
  have hfour : IsInt (4 : ℕ) := isInt_iff.mpr (by omega)
  have hten : IsInt (10 : ℕ) := isInt_iff.mpr (by omega)
  exact ⟨h.1.divides, h.2.fits hfour hten⟩

end Workers

end OperatingSystems
