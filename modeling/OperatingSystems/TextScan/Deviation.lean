import OperatingSystems.TextScan.Counting

/-!
# How far mmap_read can be off

The merge loop misses at most one long run with every range after the first, and
it never counts one twice. So the number of strings that `mmap_read` reports is at
most too small by the number of threads less one. For every number of threads
there is a file for which it is too small by just that: in ranges that begin and
end with two text bytes and have a gap the merge sees no run at all.
-/

namespace OperatingSystems

namespace TextScan

open OperatingSystems.Run

section Bound

variable {text : UInt8 → Bool} {r : Counters} {pieces : List (List UInt8)} {piece : List UInt8}
variable {missed : ℕ}

/-- With one more piece at most one more run is missed, and none with the first. -/
theorem exists_missed_concat (hempty : EmptyFirst (pieces ++ [piece]))
    (h : Missed text r pieces missed) :
    ∃ more, more ≤ 1 ∧ (pieces = [] ∨ piece.all text = true → more = 0) ∧
      Missed text r (pieces ++ [piece]) (missed + more) := by
  by_cases hall : piece.all text = true
  · have hnil := (emptyFirst_of_concat hempty).2
    exact ⟨0, Nat.zero_le _, fun _ => rfl, missed_of_all hall hnil h⟩
  by_cases hwhole : Whole text piece
  · have hmistaken : Mistaken text piece := ⟨hwhole, hall⟩
    refine ⟨_, long_le_one _, fun hfirst => ?_, missed_of_mistaken hmistaken h⟩
    rw [hfirst.resolve_right hall, List.flatten_nil, trailing_nil, Nat.zero_add]
    exact long_leading_of_mistaken hmistaken
  · refine ⟨_, ?_, fun hfirst => ?_, missed_of_not_whole hall hwhole h⟩
    · exact (Nat.sub_le _ _).trans (long_le_one _)
    · rw [hfirst.resolve_right hall]
      exact Nat.sub_self _

/-- After the first piece at most one run is missed with every other. -/
theorem exists_missed_le (text : UInt8 → Bool) (r : Counters) (hempty : EmptyFirst pieces) :
    ∃ missed, missed ≤ pieces.length - 1 ∧ Missed text r pieces missed := by
  induction pieces using List.reverseRecOn with
  | nil =>
      refine ⟨0, le_refl _, ?_⟩
      rw [Missed, List.flatten_nil, strings_nil (by omega)]
      rfl
  | append_singleton pieces piece ih =>
      obtain ⟨missed, hle, hmissed⟩ := ih (emptyFirst_of_concat hempty).1
      obtain ⟨more, hone, hfirst, hmore⟩ := exists_missed_concat hempty hmissed
      refine ⟨_, ?_, hmore⟩
      rw [List.length_append, List.length_singleton]
      by_cases hnil : pieces = []
      · rw [hfirst (.inl hnil)]
        omega
      · have hlen := List.length_pos_of_ne_nil hnil
        omega

/-- The merge of all pieces counts no run too many, and leaves out at most one with
every piece but the first. -/
theorem strings_merge_bounds (text : UInt8 → Bool) (r : Counters)
    (hempty : EmptyFirst (pieces ++ [piece])) :
    (merge text r (pieces ++ [piece])).numStrings ≤ strings text 4 (pieces ++ [piece]).flatten ∧
      (strings text 4 (pieces ++ [piece]).flatten : ℤ) ≤
        (merge text r (pieces ++ [piece])).numStrings + pieces.length := by
  obtain ⟨missed, hle, hmissed⟩ := exists_missed_le text r (emptyFirst_of_concat hempty).1
  obtain ⟨more, hone, hfirst, hmore⟩ := exists_missed_concat hempty hmissed
  have hmono := long_mono (k := 4) (trailing_getLastD_le text (pieces ++ [piece]))
  have hlong := long_le_one (k := 4) (trailing text (pieces ++ [piece]).flatten)
  unfold Missed at hmore
  refine ⟨by omega, ?_⟩
  by_cases hall : piece.all text = true
  · have hmore0 := hfirst (.inr hall)
    by_cases hnil : pieces = []
    · subst hnil
      have heq : ([] ++ [piece]).getLastD [] = ([] ++ [piece] : List (List UInt8)).flatten := by
        simp
      rw [heq] at hmore
      rw [List.length_nil] at hle ⊢
      omega
    · have hlen := List.length_pos_of_ne_nil hnil
      omega
  · -- the run at the end lies in the last piece
    have htrail : trailing text (pieces ++ [piece]).flatten =
        trailing text ((pieces ++ [piece]).getLastD []) := by
      rw [List.flatten_append, List.flatten_singleton, trailing_append, if_neg hall,
        List.getLastD_concat]
    rw [htrail] at hmore
    by_cases hnil : pieces = []
    · have hmore0 := hfirst (.inl hnil)
      omega
    · have hlen := List.length_pos_of_ne_nil hnil
      omega

theorem length_pieces (numberOfThreads : ThreadCount) (file : File) :
    (TextScan.pieces numberOfThreads file).length = numberOfThreads.val := by
  have hpos := numberOfThreads.pos
  rw [pieces_eq rfl rfl, List.length_append, slices, List.length_map, List.length_range,
    List.length_singleton]
  omega

/-- The bounds for the pieces of a file. -/
theorem numStrings_merge_bounds (text : UInt8 → Bool) (r : Counters)
    (numberOfThreads : ThreadCount) (file : File) :
    (merge text r (TextScan.pieces numberOfThreads file)).numStrings ≤
        strings text 4 file.bytes ∧
      (strings text 4 file.bytes : ℤ) ≤
        (merge text r (TextScan.pieces numberOfThreads file)).numStrings +
          (numberOfThreads.val - 1) := by
  have hlen := length_pieces numberOfThreads file
  have hempty := emptyFirst_pieces numberOfThreads file
  have hflatten := flatten_pieces numberOfThreads file
  rw [pieces_eq rfl rfl] at hlen hempty hflatten ⊢
  have hbounds := strings_merge_bounds text r hempty
  rw [hflatten] at hbounds
  rw [List.length_append, List.length_singleton] at hlen
  refine ⟨hbounds.1, hbounds.2.trans ?_⟩
  omega

end Bound

section Sharp

/-- Two text bytes, a gap, and two text bytes. -/
def gapPiece : List UInt8 := [97, 97, 0, 97, 97]

/-- A file of `n` such pieces. -/
def gapBytes (n : ℕ) : List UInt8 := (List.replicate n gapPiece).flatten

theorem length_gapBytes (n : ℕ) : (gapBytes n).length = n * 5 := by
  rw [gapBytes, List.length_flatten, List.map_replicate, List.sum_replicate_nat]
  rfl

theorem gapBytes_add (m n : ℕ) : gapBytes (m + n) = gapBytes m ++ gapBytes n := by
  rw [gapBytes, List.replicate_add, List.flatten_append]
  rfl

theorem gapBytes_one : gapBytes 1 = gapPiece := rfl

/-- Each seam is a run of four bytes. -/
theorem strings_gapBytes (n : ℕ) :
    strings isText 4 (gapBytes (n + 1)) = n ∧ trailing isText (gapBytes (n + 1)) = 2 := by
  induction n with
  | zero => decide
  | succ n ih =>
      obtain ⟨hstrings, htrail⟩ := ih
      have happ := strings_append isText 4 (gapBytes (n + 1)) gapPiece
      have hpiece : strings isText 4 gapPiece = 0 ∧ leading isText gapPiece = 2 ∧
          trailing isText gapPiece = 2 ∧ gapPiece.all isText ≠ true := by decide
      obtain ⟨hzero, hlead, htwo, hgap⟩ := hpiece
      rw [hstrings, htrail, hzero, hlead] at happ
      rw [gapBytes_add (n + 1) 1, gapBytes_one, trailing_append, if_neg hgap]
      refine ⟨?_, htwo⟩
      have hlong : long 4 2 = 0 ∧ long 4 (2 + 2) = 1 := by decide
      omega

/-- The merge counts none of them. -/
theorem numStrings_merge_replicate (r : Counters) (n : ℕ) :
    (merge isText r (List.replicate n gapPiece)).numStrings = 0 := by
  have hwhole : Whole isText gapPiece := by decide
  have hzero : strings isText 4 gapPiece = 0 := by decide
  induction n with
  | zero => rfl
  | succ n ih =>
      have hlast := previousEnd_merge isText r (List.replicate n gapPiece)
      have hlong : long 4 (trailing isText ((List.replicate n gapPiece).getLastD [])) = 0 := by
        cases n with
        | zero => rfl
        | succ n =>
            rw [List.replicate_succ', List.getLastD_concat]
            decide
      rw [List.replicate_succ', merge_concat, mergePiece_of_whole hlast hwhole]
      dsimp only
      rw [ih, hzero, hlong]
      rfl

theorem slices_gapBytes (m : ℕ) : slices 5 m (gapBytes (m + 1)) = List.replicate m gapPiece := by
  refine List.eq_replicate_iff.mpr ⟨by simp [slices], fun piece hpiece => ?_⟩
  obtain ⟨i, hi, rfl⟩ := List.mem_map.mp hpiece
  have hi := List.mem_range.mp hi
  obtain ⟨k, hk⟩ : ∃ k, m + 1 = i + (1 + k) := ⟨m - i, by omega⟩
  rw [hk, gapBytes_add, ← length_gapBytes, List.drop_left, gapBytes_add, gapBytes_one]
  exact List.take_left' rfl

variable (numberOfThreads : ThreadCount)

/-- One piece for each thread. -/
def gapsFile : File where
  bytes := gapBytes numberOfThreads.val
  size_lt := by
    have hle := numberOfThreads.le
    rw [length_gapBytes]
    omega

theorem pieces_gapsFile :
    pieces numberOfThreads (gapsFile numberOfThreads) =
      List.replicate numberOfThreads.val gapPiece := by
  have hpos := numberOfThreads.pos
  obtain ⟨m, hm⟩ : ∃ m, numberOfThreads.val = m + 1 := ⟨_, (Nat.sub_add_cancel hpos).symm⟩
  have hr : 5 = (gapsFile numberOfThreads).bytes.length / numberOfThreads.val := by
    change 5 = (gapBytes numberOfThreads.val).length / numberOfThreads.val
    rw [length_gapBytes, Nat.mul_div_cancel_left _ hpos]
  have hbytes : (gapsFile numberOfThreads).bytes = gapBytes (m + 1) := congrArg gapBytes hm
  have hdrop : (gapBytes (m + 1)).drop (m * 5) = gapPiece := by
    rw [gapBytes_add, ← length_gapBytes, List.drop_left]
    rfl
  rw [pieces_eq (m := m) hr (by omega), hbytes, slices_gapBytes, hdrop, hm, List.replicate_succ']

end Sharp

/-- On every file and with every number of threads `mmap_read` reports at most the
number of strings, and leaves out at most as many as there are threads but one. No
better bound holds: for every number of threads there is a file on which it leaves
out just so many. -/
theorem numStrings_mmapRead_bounds (numberOfThreads : ThreadCount) :
    (∀ (text : UInt8 → Bool) (file : File), file.bytes ≠ [] →
      (mmapRead text numberOfThreads file Counters.start).2.numStrings ≤
          strings text 4 file.bytes ∧
        (strings text 4 file.bytes : ℤ) ≤
          (mmapRead text numberOfThreads file Counters.start).2.numStrings +
            (numberOfThreads.val - 1)) ∧
      ∃ file : File, file.bytes ≠ [] ∧
        (strings isText 4 file.bytes : ℤ) =
          (mmapRead isText numberOfThreads file Counters.start).2.numStrings +
            (numberOfThreads.val - 1) := by
  refine ⟨fun text file hne => ?_, gapsFile numberOfThreads, ?_, ?_⟩
  · rw [mmapRead_eq hne]
    exact numStrings_merge_bounds text Counters.start numberOfThreads file
  · have hpos := numberOfThreads.pos
    have hlen : (gapsFile numberOfThreads).bytes.length = numberOfThreads.val * 5 :=
      length_gapBytes _
    refine List.ne_nil_of_length_pos ?_
    omega
  · have hpos := numberOfThreads.pos
    have hlen : (gapsFile numberOfThreads).bytes.length = numberOfThreads.val * 5 :=
      length_gapBytes _
    have hne : (gapsFile numberOfThreads).bytes ≠ [] := List.ne_nil_of_length_pos (by omega)
    have hzero := numStrings_merge_replicate Counters.start numberOfThreads.val
    have hcount := (strings_gapBytes (numberOfThreads.val - 1)).1
    rw [Nat.sub_add_cancel hpos] at hcount
    have hstrings : strings isText 4 (gapsFile numberOfThreads).bytes =
        numberOfThreads.val - 1 := hcount
    rw [mmapRead_eq hne, pieces_gapsFile]
    dsimp only
    rw [hzero, hstrings]
    omega

end TextScan

end OperatingSystems
