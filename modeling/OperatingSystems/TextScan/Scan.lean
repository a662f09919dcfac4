import OperatingSystems.Run.Words

/-!
# The scan of proj4

`proj4` counts the runs of at least four text bytes of a file and finds the
longest run, where a byte is text if `isspace` or `isprint` accepts it. The three
readers and the worker run the same loop body over the bytes, on the variables
`str_length`, `num_strings` and `max_length`; `scanByte` is that body. What the
loop leaves in these variables are the numbers of `Run`, for the letters `text`
and the length four.

A file is one whose size fits an `int`. All counters stay between -1 and that
size, so they are plain integers here.
-/

namespace OperatingSystems

namespace TextScan

open OperatingSystems.Run

/-- The contents of a file of fewer than `2 ^ 31` bytes. -/
structure File where
  bytes : List UInt8
  size_lt : bytes.length < 2 ^ 31

/-- `sb.st_size`. -/
def File.size (file : File) : ℤ := file.bytes.length

/-- `isspace(c) || isprint(c)` in the C locale. -/
def isText (c : UInt8) : Bool := (9 ≤ c && c ≤ 13) || (32 ≤ c && c ≤ 126)

/-- The variables of the loop. -/
@[ext] structure Counters where
  strLength : ℤ
  numStrings : ℤ
  maxLength : ℤ
  deriving DecidableEq, Repr

/-- The values that `main` gives to the reference parameters. -/
def Counters.start : Counters where
  strLength := 0
  numStrings := 0
  maxLength := -1

/-- How a reader ends: it returns the size of the file, or it calls `exit(1)`. -/
inductive Ending where
  | returned (size : ℤ)
  | exited
  deriving DecidableEq, Repr

section Loop

variable (text : UInt8 → Bool)

/-- The body of the loop. -/
def scanByte (r : Counters) (c : UInt8) : Counters :=
  let strLength := if text c then r.strLength + 1 else 0
  { strLength := strLength
    numStrings := if strLength = 4 then r.numStrings + 1 else r.numStrings
    maxLength := if text c ∧ r.maxLength < strLength then strLength else r.maxLength }

/-- The loop over the bytes. -/
def scan (r : Counters) (bytes : List UInt8) : Counters :=
  bytes.foldl (scanByte text) r

/-- `mmap_regular_read`: an empty file cannot be mapped, any other is scanned in
one loop. -/
def mmapRegularRead (file : File) (r : Counters) : Ending × Counters :=
  if file.bytes = [] then (.exited, r) else (.returned file.size, scan text r file.bytes)

end Loop

section Spec

variable {text : UInt8 → Bool} {r : Counters}

@[simp] theorem scan_nil : scan text r [] = r := rfl

theorem scan_append (x y : List UInt8) :
    scan text r (x ++ y) = scan text (scan text r x) y :=
  List.foldl_append

theorem scan_concat (x : List UInt8) (c : UInt8) :
    scan text r (x ++ [c]) = scanByte text (scan text r x) c := by
  rw [scan_append]
  rfl

/-- After the loop `str_length` is the length of the last run. -/
theorem scan_strLength (hr : r.strLength = 0) (x : List UInt8) :
    (scan text r x).strLength = trailing text x := by
  induction x using List.reverseRecOn with
  | nil => exact hr
  | append_singleton x c ih =>
      rw [scan_concat, trailing_concat]
      simp only [scanByte, ih]
      split <;> simp

/-- The loop adds the runs of at least four bytes to `num_strings`. -/
theorem scan_numStrings (hr : r.strLength = 0) (x : List UInt8) :
    (scan text r x).numStrings = r.numStrings + strings text 4 x := by
  induction x using List.reverseRecOn with
  | nil => simp
  | append_singleton x c ih =>
      rw [scan_concat, strings_concat text x c (by omega)]
      simp only [scanByte, ih, scan_strLength hr]
      by_cases hc : text c = true
      · simp only [hc, if_true, true_and]
        split_ifs <;> omega
      · simp [hc]

/-- The loop takes the longest run into `max_length`, if there is a run at all. -/
theorem scan_maxLength (hr : r.strLength = 0) (x : List UInt8) :
    (scan text r x).maxLength =
      if x.any text = true then max r.maxLength (longest text x) else r.maxLength := by
  induction x using List.reverseRecOn with
  | nil => simp
  | append_singleton x c ih =>
      have htrail := trailing_le_longest (p := text) (l := x)
      rw [scan_concat, longest_concat]
      simp only [scanByte, ih, scan_strLength hr, List.any_append, List.any_cons, List.any_nil]
      by_cases hc : text c = true
      · simp only [hc, if_true, true_and, Bool.or_false, Bool.or_true]
        by_cases hx : x.any text = true
        · rw [if_pos hx]
          split_ifs <;> omega
        · have hzero := longest_of_none (p := text) (l := x) (by simpa using hx)
          rw [if_neg hx]
          split_ifs <;> omega
      · simp [hc]

end Spec

end TextScan

end OperatingSystems
