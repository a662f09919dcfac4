import OperatingSystems.Run.Pieces

/-!
# Longest prefixes, suffixes and pieces

What the lengths of the runs at the ends of a word and of its longest run say about
the word: they are the greatest lengths of a prefix, of a suffix and of a piece whose
letters all satisfy `p`.
-/

namespace OperatingSystems

namespace Run

variable {α : Type*} {p : α → Bool} {l : List α}

/-- The greatest length of a list with the property `P`. -/
structure IsLongest (P : List α → Prop) (n : ℕ) : Prop where
  attained : ∃ x, P x ∧ x.length = n
  le : ∀ x, P x → x.length ≤ n

theorem isLongest_leading (p : α → Bool) (l : List α) :
    IsLongest (fun x => x <+: l ∧ ∀ a ∈ x, p a = true) (leading p l) where
  attained := ⟨l.takeWhile p, ⟨List.takeWhile_prefix p, fun _ ha => List.mem_takeWhile_imp ha⟩,
    rfl⟩
  le := by
    rintro x ⟨⟨t, rfl⟩, hx⟩
    rw [leading, List.takeWhile_append_of_pos hx, List.length_append]
    exact Nat.le_add_right _ _

/-- The last letters of a word are the first ones of the reversed word. -/
theorem isLongest_trailing (p : α → Bool) (l : List α) :
    IsLongest (fun x => x <:+ l ∧ ∀ a ∈ x, p a = true) (trailing p l) where
  attained := by
    obtain ⟨x, ⟨hbegins, hx⟩, hlength⟩ := (isLongest_leading p l.reverse).attained
    refine ⟨x.reverse, ⟨?_, fun a ha => hx a (List.mem_reverse.mp ha)⟩, ?_⟩
    · rwa [← List.reverse_prefix, List.reverse_reverse]
    · rw [List.length_reverse, hlength]
      rfl
  le := by
    rintro x ⟨hsuffix, hx⟩
    have hle := (isLongest_leading p l.reverse).le x.reverse
      ⟨List.reverse_prefix.mpr hsuffix, fun a ha => hx a (List.mem_reverse.mp ha)⟩
    rwa [List.length_reverse] at hle

/-- A word without pieces has no letter of `p`. -/
theorem Pieces.eq_nil_iff {pieces : List (List α)} (h : Pieces p l pieces) :
    pieces = [] ↔ ∀ a ∈ l, p a = false := by
  constructor
  · rintro rfl a ha
    by_contra hp
    obtain ⟨r, hr, -⟩ := h.exists_longest ⟨a, ha, by simpa using hp⟩
    exact absurd hr List.not_mem_nil
  · intro hnone
    obtain rfl := h.unique (pieces_runs p l)
    refine List.filter_eq_nil_iff.mpr fun r hr => ?_
    simp [eq_nil_of_mem_runs hnone hr]

theorem Pieces.isLongest {pieces : List (List α)} (h : Pieces p l pieces) (hne : pieces ≠ []) :
    IsLongest (· ∈ pieces) (longest p l) where
  attained := by
    refine h.exists_longest ?_
    simpa using mt h.eq_nil_iff.mpr hne
  le := fun _ hr => h.length_le_longest hr

theorem Pieces.longest_eq_zero {pieces : List (List α)} (h : Pieces p l pieces)
    (hnil : pieces = []) : longest p l = 0 :=
  longest_of_none (h.eq_nil_iff.mp hnil)

end Run

end OperatingSystems
