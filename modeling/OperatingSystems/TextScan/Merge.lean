import OperatingSystems.TextScan.Ranges

/-!
# The merge loop of mmap_read

`mmap_read` sends the ranges, joins the workers and receives their answers in
the order of the ranges. The loop over the answers adds up the numbers of long
runs and corrects the sum at every seam, and it carries on the length of the run
at the end of the ranges so far.

An answer with at most one long run whose leading and trailing runs have the
same length, not zero, is taken for one run that fills its range. A range of
text passes this test, and so do some ranges with a gap; these are the mistaken
ones.
-/

namespace OperatingSystems

namespace TextScan

open OperatingSystems.Run

/-- The variables of the merge loop. Of `maxLengthEnd` only the entry of the
worker before is read. -/
@[ext] structure Totals where
  numStrings : ℤ
  maxLength : ℤ
  maxLengthEnd : ℤ
  previousEnd : ℤ
  deriving DecidableEq, Repr

/-- The body of the merge loop. A message of another type is only printed, and
the entry of `maxLengthEnd` keeps its zero. -/
def mergeMessage (s : Totals) (message : Msg) : Totals :=
  if message.type = .alldone then
    let numStrings := s.numStrings + message.value1
    if message.value1 ≤ 1 ∧ message.value2 = message.value3 ∧ message.value2 ≠ 0 then
      let maxStringLength := s.maxLengthEnd + message.value2
      { numStrings := if s.previousEnd ≥ 4 then numStrings - 1 else numStrings
        maxLength := if maxStringLength > s.maxLength then maxStringLength else s.maxLength
        maxLengthEnd := maxStringLength
        previousEnd := message.value3 }
    else
      let mergedLength := s.maxLengthEnd + message.value2
      let maxStringLength :=
        if mergedLength > message.value4 then mergedLength else message.value4
      { numStrings :=
          if s.previousEnd + message.value2 ≥ 4 ∧ message.value2 < 4 ∧ s.previousEnd < 4 then
            numStrings + 1
          else if s.previousEnd ≥ 4 ∧ message.value2 ≥ 4 then numStrings - 1
          else numStrings
        maxLength := if maxStringLength > s.maxLength then maxStringLength else s.maxLength
        maxLengthEnd := message.value3
        previousEnd := message.value3 }
  else { s with maxLengthEnd := 0 }

/-- The variables before the merge loop. -/
def Totals.start (r : Counters) : Totals where
  numStrings := 0
  maxLength := r.maxLength
  maxLengthEnd := 0
  previousEnd := 0

/-- `mmap_read`: an empty file cannot be mapped; else the workers answer the
parent's messages, unless one of them exits, and the answers are merged. -/
def mmapRead (text : UInt8 → Bool) (numberOfThreads : ThreadCount) (file : File)
    (r : Counters) : Ending × Counters :=
  if file.bytes = [] then (.exited, r)
  else
    match (requests numberOfThreads file.size).mapM (sumthread text file.bytes) with
    | none => (.exited, r)
    | some replies =>
        let s := replies.foldl mergeMessage (Totals.start r)
        (.returned file.size, { r with numStrings := s.numStrings, maxLength := s.maxLength })

section Pieces

variable (text : UInt8 → Bool)

/-- The test by which the merge takes a piece for one run. -/
def Whole (piece : List UInt8) : Prop :=
  strings text 4 piece ≤ 1 ∧ leading text piece = trailing text piece ∧
    leading text piece ≠ 0

instance (piece : List UInt8) : Decidable (Whole text piece) :=
  inferInstanceAs (Decidable (_ ∧ _ ∧ _))

/-- A piece with a gap that the merge takes for one run. -/
def Mistaken (piece : List UInt8) : Prop :=
  Whole text piece ∧ piece.all text ≠ true

instance (piece : List UInt8) : Decidable (Mistaken text piece) :=
  inferInstanceAs (Decidable (_ ∧ _))

/-- The body of the merge loop on the answer for a piece. -/
def mergePiece (s : Totals) (piece : List UInt8) : Totals :=
  mergeMessage s (answer text (rangeMessage 0 0) piece)

/-- The merge of the answers for some pieces. -/
def merge (r : Counters) (pieces : List (List UInt8)) : Totals :=
  pieces.foldl (mergePiece text) (Totals.start r)

end Pieces

section Spec

variable {text : UInt8 → Bool} {r : Counters}

theorem merge_concat (pieces : List (List UInt8)) (piece : List UInt8) :
    merge text r (pieces ++ [piece]) = mergePiece text (merge text r pieces) piece := by
  rw [merge, List.foldl_append]
  rfl

theorem whole_of_all {piece : List UInt8} (hall : piece.all text = true) (hne : piece ≠ []) :
    Whole text piece := by
  have hlen := List.length_pos_of_ne_nil hne
  refine ⟨?_, ?_, ?_⟩
  · rw [strings_of_all hall]
    exact long_le_one _
  · rw [leading_of_all hall, trailing_of_all hall]
  · rw [leading_of_all hall]
    omega

/-- The test on the values of an answer. -/
theorem whole_iff (piece : List UInt8) :
    ((strings text 4 piece : ℤ) ≤ 1 ∧ (leading text piece : ℤ) = trailing text piece ∧
      (leading text piece : ℤ) ≠ 0) ↔ Whole text piece := by
  unfold Whole
  omega

theorem mergePiece_of_whole {s : Totals} {e : ℕ} {piece : List UInt8}
    (he : s.previousEnd = e) (h : Whole text piece) :
    mergePiece text s piece =
      { numStrings := s.numStrings + strings text 4 piece - long 4 e
        maxLength := max s.maxLength (s.maxLengthEnd + leading text piece)
        maxLengthEnd := s.maxLengthEnd + leading text piece
        previousEnd := trailing text piece } := by
  simp only [mergePiece, mergeMessage, answer, whole_iff, h, if_true, he]
  ext
  · simp only [long]
    split_ifs <;> omega
  · dsimp only
    split_ifs <;> omega
  · rfl
  · rfl

theorem mergePiece_of_not_whole {s : Totals} {e : ℕ} {piece : List UInt8}
    (he : s.previousEnd = e) (h : ¬ Whole text piece) :
    mergePiece text s piece =
      { numStrings := s.numStrings + strings text 4 piece +
          long 4 (e + leading text piece) - long 4 e - long 4 (leading text piece)
        maxLength := max s.maxLength
          (max (s.maxLengthEnd + leading text piece) (longest text piece))
        maxLengthEnd := trailing text piece
        previousEnd := trailing text piece } := by
  simp only [mergePiece, mergeMessage, answer, whole_iff, h, if_true, if_false, he]
  ext
  · simp only [long]
    split_ifs <;> omega
  · dsimp only
    split_ifs <;> omega
  · rfl
  · rfl

/-- The loop leaves the length of the run at the end of the last piece. -/
theorem previousEnd_merge (text : UInt8 → Bool) (r : Counters) (pieces : List (List UInt8)) :
    (merge text r pieces).previousEnd = trailing text (pieces.getLastD []) := by
  induction pieces using List.reverseRecOn with
  | nil => rfl
  | append_singleton pieces piece ih =>
      rw [merge_concat, List.getLastD_concat]
      by_cases h : Whole text piece
      · rw [mergePiece_of_whole ih h]
      · rw [mergePiece_of_not_whole ih h]

/-- The workers answer all messages of type `RANGE`. -/
theorem mapM_sumthread (pchFile : List UInt8) {messages : List Msg}
    (h : ∀ message ∈ messages, message.type = .range) :
    messages.mapM (sumthread text pchFile) =
      some (messages.map fun message => answer text message (message.bytes pchFile)) := by
  induction messages with
  | nil => rfl
  | cons message messages ih =>
      rw [List.mapM_cons, sumthread_eq (h message List.mem_cons_self),
        ih fun m hm => h m (List.mem_cons_of_mem message hm)]
      rfl

theorem type_of_mem_requests {numberOfThreads : ThreadCount} {fileSize : ℤ} {message : Msg}
    (h : message ∈ requests numberOfThreads fileSize) : message.type = .range := by
  rcases List.mem_append.mp h with h | h
  · obtain ⟨i, _, rfl⟩ := List.mem_map.mp h
    rfl
  · rw [List.mem_singleton.mp h]
    rfl

/-- All workers answer, so `mmap_read` merges the answers for the pieces. -/
theorem mmapRead_eq {numberOfThreads : ThreadCount} {file : File} (hne : file.bytes ≠ []) :
    mmapRead text numberOfThreads file r =
      (.returned file.size,
        { r with
          numStrings := (merge text r (pieces numberOfThreads file)).numStrings
          maxLength := (merge text r (pieces numberOfThreads file)).maxLength }) := by
  have hmerge : ((requests numberOfThreads file.size).map fun message =>
      answer text message (message.bytes file.bytes)).foldl mergeMessage (Totals.start r) =
        merge text r (pieces numberOfThreads file) := by
    rw [merge, pieces, List.foldl_map, List.foldl_map]
    rfl
  rw [mmapRead, if_neg hne, mapM_sumthread file.bytes fun m hm => type_of_mem_requests hm]
  dsimp only
  rw [hmerge]

end Spec

end TextScan

end OperatingSystems
