import Mathlib.Data.Int.ConditionallyCompleteOrder
import Mathlib.Data.List.Chain

/-!
# Ranges end to end

A range is given by its first and its last number, and is empty when the last is one
less than the first. A tiling lays ranges end to end: each begins behind the one
before. Such ranges share no number, and together they are one range. Ascending cut
points give a tiling.
-/

namespace OperatingSystems

namespace Interval

/-- The number is in the range. -/
def Contains (r : ℤ × ℤ) (n : ℤ) : Prop := r.1 ≤ n ∧ n ≤ r.2

/-- Ranges end to end from `first` to `last`. -/
def Tiles (first : ℤ) : List (ℤ × ℤ) → ℤ → Prop
  | [], last => last + 1 = first
  | r :: rs, last => r.1 = first ∧ r.1 ≤ r.2 + 1 ∧ Tiles (r.2 + 1) rs last

/-- The ranges are consecutive and divide the numbers from `first` to `last` among
themselves. -/
structure Divides (ranges : List (ℤ × ℤ)) (first last : ℤ) : Prop where
  starts : (ranges.head?.map Prod.fst) = some first
  consecutive : ranges.IsChain fun r s => s.1 = r.2 + 1
  ends : (ranges.getLast?.map Prod.snd) = some last
  disjoint : ranges.Pairwise fun r s => ∀ n, ¬ (Contains r n ∧ Contains s n)
  cover : ∀ n, (∃ r ∈ ranges, Contains r n) ↔ first ≤ n ∧ n ≤ last

section Tiles

variable {first last : ℤ} {r : ℤ × ℤ} {ranges : List (ℤ × ℤ)}

theorem Tiles.le (h : Tiles first ranges last) : first ≤ last + 1 := by
  induction ranges generalizing first with
  | nil => exact h.ge
  | cons r ranges ih =>
      obtain ⟨hfirst, hle, hrest⟩ := h
      have hrest := ih hrest
      omega

/-- All ranges lie between the two ends. -/
theorem Tiles.bounds (h : Tiles first ranges last) (hr : r ∈ ranges) :
    first ≤ r.1 ∧ r.2 ≤ last := by
  induction ranges generalizing first with
  | nil => exact absurd hr List.not_mem_nil
  | cons s ranges ih =>
      obtain ⟨hfirst, hle, hrest⟩ := h
      have hlast := hrest.le
      rcases List.mem_cons.mp hr with rfl | hr
      · omega
      · have hr := ih hrest hr
        omega

theorem Tiles.append {middle : ℤ} {ranges' : List (ℤ × ℤ)} (h : Tiles first ranges middle)
    (h' : Tiles (middle + 1) ranges' last) : Tiles first (ranges ++ ranges') last := by
  induction ranges generalizing first with
  | nil => exact h ▸ h'
  | cons r ranges ih => exact ⟨h.1, h.2.1, ih h.2.2⟩

theorem tiles_singleton (h : r.1 ≤ r.2 + 1) : Tiles r.1 [r] r.2 := ⟨rfl, h, rfl⟩

/-- The ranges between ascending cut points. -/
theorem tiles_cuts {c : ℕ → ℤ} (hc : ∀ i, c i ≤ c (i + 1)) (m : ℕ) :
    Tiles (c 0) ((List.range m).map fun i => (c i, c (i + 1) - 1)) (c m - 1) := by
  induction m with
  | zero => exact Int.sub_add_cancel _ _
  | succ m ih =>
      rw [List.range_succ, List.map_append]
      refine ih.append ?_
      rw [Int.sub_add_cancel]
      have hle := hc m
      exact tiles_singleton (r := (c m, c (m + 1) - 1)) (by dsimp only; omega)

/-- A number between the ends is in one of the ranges. -/
theorem Tiles.cover (h : Tiles first ranges last) (n : ℤ) :
    (∃ r ∈ ranges, Contains r n) ↔ first ≤ n ∧ n ≤ last := by
  constructor
  · rintro ⟨r, hr, hn⟩
    have hbounds := h.bounds hr
    unfold Contains at hn
    omega
  · intro hn
    induction ranges generalizing first with
    | nil =>
        have hend : last + 1 = first := h
        omega
    | cons r ranges ih =>
        obtain ⟨hfirst, hle, hrest⟩ := h
        by_cases hr : n ≤ r.2
        · exact ⟨r, List.mem_cons_self, by omega, hr⟩
        · obtain ⟨s, hs, hn⟩ := ih hrest (by omega)
          exact ⟨s, List.mem_cons_of_mem r hs, hn⟩

theorem Tiles.disjoint (h : Tiles first ranges last) :
    ranges.Pairwise fun r s => ∀ n, ¬ (Contains r n ∧ Contains s n) := by
  induction ranges generalizing first with
  | nil => exact List.Pairwise.nil
  | cons r ranges ih =>
      obtain ⟨hfirst, hle, hrest⟩ := h
      refine List.pairwise_cons.mpr ⟨fun s hs n hn => ?_, ih hrest⟩
      have hs := hrest.bounds hs
      unfold Contains at hn
      omega

theorem Tiles.consecutive (h : Tiles first ranges last) :
    ranges.IsChain fun r s => s.1 = r.2 + 1 := by
  induction ranges generalizing first with
  | nil => exact List.IsChain.nil
  | cons r ranges ih =>
      obtain ⟨hfirst, hle, hrest⟩ := h
      cases ranges with
      | nil => exact List.IsChain.singleton r
      | cons s ranges => exact List.IsChain.cons_cons hrest.1 (ih hrest)

theorem Tiles.ends (h : Tiles first ranges last) (hne : ranges ≠ []) :
    ranges.getLast?.map Prod.snd = some last := by
  induction ranges generalizing first with
  | nil => exact absurd rfl hne
  | cons r ranges ih =>
      obtain ⟨hfirst, hle, hrest⟩ := h
      cases ranges with
      | nil =>
          have hend : last + 1 = r.2 + 1 := hrest
          have hlast : r.2 = last := by omega
          exact congrArg some hlast
      | cons s ranges =>
          rw [List.getLast?_cons_cons]
          exact ih hrest (List.cons_ne_nil _ _)

/-- Ranges end to end divide what lies between the two ends. -/
theorem Tiles.divides (h : Tiles first ranges last) (hne : ranges ≠ []) :
    Divides ranges first last where
  starts := by
    obtain ⟨r, rs, rfl⟩ := List.exists_cons_of_ne_nil hne
    exact congrArg some h.1
  consecutive := h.consecutive
  ends := h.ends hne
  disjoint := h.disjoint
  cover := h.cover

end Tiles

end Interval

end OperatingSystems
