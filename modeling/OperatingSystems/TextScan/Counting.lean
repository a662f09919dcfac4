import OperatingSystems.TextScan.Merge

/-!
# When mmap_read counts right

The merge never counts a run twice, and it misses some. At a seam it looks only
at the end of the last range, so it misses a run that has four bytes before the
last range but not within the two ranges around the seam where it ends. It also
misses a run that ends at the beginning of a mistaken range. A run that reaches
the end of the file is missed when less than four of its bytes lie in the last
range.
-/

namespace OperatingSystems

namespace TextScan

open OperatingSystems.Run

section Conditions

variable (text : UInt8 → Bool)

/-- A long run that ends within `piece` is long within `piece` and the piece
before it, and `piece` is not mistaken. -/
def SeamRight (before : List (List UInt8)) (piece : List UInt8) : Prop :=
  piece.all text ≠ true → 4 ≤ trailing text before.flatten + leading text piece →
    4 ≤ trailing text (before.getLastD []) + leading text piece ∧ ¬ Mistaken text piece

def SeamsRight (pieces : List (List UInt8)) : Prop :=
  ∀ before piece, before ++ [piece] <+: pieces → SeamRight text before piece

/-- Every long run is long in the two pieces around the seam where it ends and
ends in no mistaken piece, and a long run at the end is long in the last piece. -/
def CountsRight (pieces : List (List UInt8)) : Prop :=
  SeamsRight text pieces ∧
    (4 ≤ trailing text pieces.flatten → 4 ≤ trailing text (pieces.getLastD []))

end Conditions

section Invariant

variable {text : UInt8 → Bool} {r : Counters}

theorem seamsRight_nil : SeamsRight text [] := by
  intro before piece h
  have hlen := h.length_le
  rw [List.length_append, List.length_singleton, List.length_nil] at hlen
  omega

theorem seamsRight_concat {pieces : List (List UInt8)} {piece : List UInt8} :
    SeamsRight text (pieces ++ [piece]) ↔
      SeamsRight text pieces ∧ SeamRight text pieces piece := by
  constructor
  · intro h
    exact ⟨fun before p hp => h before p (hp.trans (List.prefix_append _ _)),
      h pieces piece (List.prefix_refl _)⟩
  · rintro ⟨hpieces, hpiece⟩ before p hp
    rcases List.prefix_concat_iff.mp hp with heq | hp
    · obtain ⟨rfl, rfl⟩ := List.append_singleton_inj.mp heq
      exact hpiece
    · exact hpieces before p hp

theorem emptyFirst_of_concat {α : Type*} {pieces : List (List α)} {piece : List α}
    (h : EmptyFirst (pieces ++ [piece])) :
    EmptyFirst pieces ∧ (piece = [] → pieces.flatten = []) :=
  ⟨fun before p hp => h before p (hp.trans (List.prefix_append _ _)),
    h pieces piece (List.prefix_refl _)⟩

/-- The run at the end of the last piece is part of the run at the end of all. -/
theorem trailing_getLastD_le (text : UInt8 → Bool) (pieces : List (List UInt8)) :
    trailing text (pieces.getLastD []) ≤ trailing text pieces.flatten := by
  induction pieces using List.reverseRecOn with
  | nil => exact le_refl _
  | append_singleton pieces piece ih =>
      rw [List.getLastD_concat, List.flatten_append, List.flatten_singleton]
      exact trailing_le_append _ _

/-- A piece with a gap that passes the test has short runs at its ends. -/
theorem long_leading_of_mistaken {piece : List UInt8} (h : Mistaken text piece) :
    long 4 (leading text piece) = 0 := by
  obtain ⟨⟨hone, hends, -⟩, hgap⟩ := h
  have hle := long_ends_le (k := 4) hgap
  rw [← hends] at hle
  omega

/-- What the loop has not counted so far is what it missed at the seams, and the
run at the end if that is long but short in the last piece. -/
def Missed (text : UInt8 → Bool) (r : Counters) (pieces : List (List UInt8)) (missed : ℕ) :
    Prop :=
  (strings text 4 pieces.flatten : ℤ) + long 4 (trailing text (pieces.getLastD [])) =
    (merge text r pieces).numStrings + missed + long 4 (trailing text pieces.flatten)

section Step

variable {pieces : List (List UInt8)} {piece : List UInt8} {missed : ℕ}

/-- A piece of text only makes the last run longer. -/
theorem missed_of_all (hall : piece.all text = true) (hnil : piece = [] → pieces.flatten = [])
    (h : Missed text r pieces missed) : Missed text r (pieces ++ [piece]) missed := by
  have hlast := previousEnd_merge text r pieces
  have happ := strings_append text 4 pieces.flatten piece
  unfold Missed at h ⊢
  rw [merge_concat, List.getLastD_concat, List.flatten_append, List.flatten_singleton,
    trailing_append, if_pos hall]
  by_cases hne : piece = []
  · have hle := trailing_getLastD_le text pieces
    have hwhole : ¬ Whole text [] := fun h => h.2.2 rfl
    subst hne
    rw [hnil rfl, trailing_nil] at hle
    rw [hnil rfl, strings_nil (by omega), trailing_nil, Nat.le_zero.mp hle] at h
    rw [mergePiece_of_not_whole hlast hwhole, hnil rfl, Nat.le_zero.mp hle]
    simpa [long] using h
  · have hends : leading text piece = trailing text piece :=
      (leading_of_all hall).trans (trailing_of_all hall).symm
    rw [strings_of_all hall, hends] at happ
    rw [mergePiece_of_whole hlast (whole_of_all hall hne), strings_of_all hall, hends]
    dsimp only
    omega

/-- A mistaken piece is joined to the run before it, which is then missed if it
ends long in that piece. -/
theorem missed_of_mistaken (hmistaken : Mistaken text piece) (h : Missed text r pieces missed) :
    Missed text r (pieces ++ [piece])
      (missed + long 4 (trailing text pieces.flatten + leading text piece)) := by
  have hlast := previousEnd_merge text r pieces
  have happ := strings_append text 4 pieces.flatten piece
  have hlong := long_leading_of_mistaken hmistaken
  unfold Missed at h ⊢
  rw [merge_concat, List.getLastD_concat, List.flatten_append, List.flatten_singleton,
    trailing_append, if_neg hmistaken.2, mergePiece_of_whole hlast hmistaken.1]
  dsimp only
  omega

/-- At any other piece with a gap a run is missed if it is long but not within
this piece and the one before. -/
theorem missed_of_not_whole (hgap : piece.all text ≠ true) (hwhole : ¬ Whole text piece)
    (h : Missed text r pieces missed) :
    Missed text r (pieces ++ [piece])
      (missed + (long 4 (trailing text pieces.flatten + leading text piece) -
        long 4 (trailing text (pieces.getLastD []) + leading text piece))) := by
  have hlast := previousEnd_merge text r pieces
  have happ := strings_append text 4 pieces.flatten piece
  have hmono := long_mono (k := 4) (Nat.add_le_add_right
    (trailing_getLastD_le text pieces) (leading text piece))
  unfold Missed at h ⊢
  rw [merge_concat, List.getLastD_concat, List.flatten_append, List.flatten_singleton,
    trailing_append, if_neg hgap, mergePiece_of_not_whole hlast hwhole]
  dsimp only
  omega

end Step

/-- Nothing is missed exactly when the seams are right. -/
theorem exists_missed (text : UInt8 → Bool) (r : Counters) {pieces : List (List UInt8)}
    (hempty : EmptyFirst pieces) :
    ∃ missed, (missed = 0 ↔ SeamsRight text pieces) ∧ Missed text r pieces missed := by
  induction pieces using List.reverseRecOn with
  | nil =>
      refine ⟨0, iff_of_true rfl seamsRight_nil, ?_⟩
      rw [Missed, List.flatten_nil, strings_nil (by omega)]
      rfl
  | append_singleton pieces piece ih =>
      obtain ⟨hpieces, hnil⟩ := emptyFirst_of_concat hempty
      obtain ⟨missed, hiff, hmissed⟩ := ih hpieces
      rw [seamsRight_concat]
      by_cases hall : piece.all text = true
      · have hseam : SeamRight text pieces piece := fun h => absurd hall h
        exact ⟨missed, by rw [hiff, and_iff_left hseam], missed_of_all hall hnil hmissed⟩
      by_cases hwhole : Whole text piece
      · refine ⟨_, ?_, missed_of_mistaken ⟨hwhole, hall⟩ hmissed⟩
        rw [Nat.add_eq_zero_iff, hiff, long_eq_zero_iff]
        apply and_congr_right
        intro _
        constructor
        · intro hlt _ hle
          omega
        · intro hseam
          by_contra hle
          exact (hseam hall (by omega)).2 ⟨hwhole, hall⟩
      · refine ⟨_, ?_, missed_of_not_whole hall hwhole hmissed⟩
        rw [Nat.add_eq_zero_iff, hiff]
        apply and_congr_right
        intro _
        have hseam : SeamRight text pieces piece ↔
            (4 ≤ trailing text pieces.flatten + leading text piece →
              4 ≤ trailing text (pieces.getLastD []) + leading text piece) :=
          ⟨fun h hle => (h hall hle).1, fun h _ hle => ⟨h hle, fun hm => hwhole hm.1⟩⟩
        rw [hseam, Nat.sub_eq_zero_iff_le, long_le_long_iff]

/-- `mmap_read` counts the strings of the file that `mmap_regular_read` counts
exactly when every long run is long where the merge looks for it. -/
theorem numStrings_mmapRead_eq_iff {numberOfThreads : ThreadCount} {file : File}
    (hne : file.bytes ≠ []) :
    (mmapRead text numberOfThreads file Counters.start).2.numStrings =
        (mmapRegularRead text file Counters.start).2.numStrings ↔
      CountsRight text (pieces numberOfThreads file) := by
  obtain ⟨missed, hiff, hmissed⟩ := exists_missed text Counters.start
    (emptyFirst_pieces numberOfThreads file)
  have hlong := long_mono (k := 4)
    (trailing_getLastD_le text (pieces numberOfThreads file))
  rw [mmapRead_eq hne, mmapRegularRead, if_neg hne]
  dsimp only
  rw [scan_numStrings rfl, CountsRight, ← hiff, ← long_le_long_iff]
  unfold Missed at hmissed
  rw [flatten_pieces] at hmissed hlong ⊢
  have hzero : Counters.start.numStrings = 0 := rfl
  rw [hzero]
  omega

end Invariant

/-- A run of four bytes, cut into two by two threads. -/
def fourBytes : File := ⟨[97, 98, 99, 100], by decide⟩

/-- A run of eight bytes. -/
def eightBytes : File := ⟨[97, 98, 99, 100, 101, 102, 103, 104], by decide⟩

/-- Two threads count the one run of eight bytes, as four of them are in the
last range. -/
theorem numStrings_mmapRead_eq_iff_eightBytes :
    CountsRight isText (pieces twoThreads eightBytes) := by
  have hne : eightBytes.bytes ≠ [] := by decide
  apply (numStrings_mmapRead_eq_iff hne).mp
  decide

/-- Two threads find no string in a file that is one string of four bytes. -/
theorem numStrings_mmapRead_ne_fourBytes :
    fourBytes.bytes ≠ [] ∧
      (mmapRead isText twoThreads fourBytes Counters.start).2.numStrings = 0 ∧
      (mmapRegularRead isText fourBytes Counters.start).2.numStrings = 1 := by
  decide

end TextScan

end OperatingSystems
