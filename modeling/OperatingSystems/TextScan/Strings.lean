import OperatingSystems.Run.Pieces
import OperatingSystems.TextScan.Scan

/-!
# What the scan reports

The loop counts a run when its fourth byte is read, and compares the length of
the unfinished run with the longest one at every byte. At the end of the file
these are the number of maximal pieces of text of at least four bytes and the
length of the longest piece. The counters never leave the range of an `int`.
-/

namespace OperatingSystems

namespace TextScan

open OperatingSystems.Run

variable {text : UInt8 → Bool}

/-- From the first values on, the counters stay between -1 and the number of
bytes read. -/
theorem scan_start_fits (text : UInt8 → Bool) (x : List UInt8) :
    let r := scan text Counters.start x
    (0 ≤ r.strLength ∧ r.strLength ≤ x.length) ∧ (0 ≤ r.numStrings ∧ r.numStrings ≤ x.length) ∧
      (-1 ≤ r.maxLength ∧ r.maxLength ≤ x.length) := by
  induction x using List.reverseRecOn with
  | nil => exact ⟨⟨le_refl _, le_refl _⟩, ⟨le_refl _, le_refl _⟩,
      ⟨le_refl _, show (-1 : ℤ) ≤ 0 by decide⟩⟩
  | append_singleton x c ih =>
      simp only [scan_concat, scanByte, List.length_append, List.length_singleton, Nat.cast_add,
        Nat.cast_one] at ih ⊢
      split_ifs <;> omega

/-- The scan of a file reports the number of its maximal pieces of text of at
least four bytes, and the length of the longest piece or -1. -/
theorem scan_pieces (text : UInt8 → Bool) (file : File) :
    ∃ pieces, Pieces text file.bytes pieces ∧
      (scan text Counters.start file.bytes).numStrings =
        (pieces.countP fun r => 4 ≤ r.length : ℕ) ∧
      ((∀ c ∈ file.bytes, text c = false) →
        (scan text Counters.start file.bytes).maxLength = -1) ∧
      ((∃ c ∈ file.bytes, text c = true) →
        (∃ r ∈ pieces, (r.length : ℤ) = (scan text Counters.start file.bytes).maxLength) ∧
        ∀ r ∈ pieces, (r.length : ℤ) ≤ (scan text Counters.start file.bytes).maxLength) := by
  have hpieces := pieces_runs text file.bytes
  have hmax : (scan text Counters.start file.bytes).maxLength =
      if file.bytes.any text = true then max Counters.start.maxLength (longest text file.bytes)
      else Counters.start.maxLength := scan_maxLength rfl file.bytes
  refine ⟨_, hpieces, ?_, fun hnone => ?_, fun hex => ?_⟩
  · rw [scan_numStrings rfl, hpieces.strings_eq (by decide)]
    exact zero_add _
  · rw [hmax, if_neg]
    · rfl
    · simpa using hnone
  · rw [if_pos (by simpa using hex)] at hmax
    have hlongest : max Counters.start.maxLength (longest text file.bytes) =
        longest text file.bytes := max_eq_right (by simp only [Counters.start]; omega)
    rw [hlongest] at hmax
    obtain ⟨r, hr, hlen⟩ := hpieces.exists_longest hex
    refine ⟨⟨r, hr, by rw [hmax, hlen]⟩, fun r hr => ?_⟩
    rw [hmax]
    exact_mod_cast hpieces.length_le_longest hr

end TextScan

end OperatingSystems
