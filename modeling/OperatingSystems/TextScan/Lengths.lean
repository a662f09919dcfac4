import Mathlib.Algebra.BigOperators.Group.List.Basic
import Mathlib.Order.Bounds.Basic
import OperatingSystems.TextScan.Merge

/-!
# When mmap_read finds the longest run

The merge joins the run at the end of a piece, the runs that fill the pieces
after it and the run at the beginning of the next piece. Such a stretch is a run
of the file if text fills the pieces in the middle, but the merge also joins
over mistaken pieces. And it does not look at the runs inside a mistaken piece.
So the length it finds is that of the longest run exactly when no stretch over a
mistaken piece is longer, and when some longest run is a stretch or lies in a
piece that is not mistaken.
-/

namespace OperatingSystems

namespace TextScan

open OperatingSystems.Run

/-- A piece, or the beginning of the file, followed by pieces that pass the test
of the merge and one more piece. -/
structure Stretch (text : UInt8 → Bool) (pieces : List (List UInt8)) where
  first : List UInt8
  middle : List (List UInt8)
  last : List UInt8
  isInfix : first :: middle ++ [last] <:+: [] :: pieces
  whole : ∀ piece ∈ middle, Whole text piece

/-- The length of the run that the merge makes of a stretch. -/
def Stretch.length {text : UInt8 → Bool} {pieces : List (List UInt8)}
    (s : Stretch text pieces) : ℕ :=
  trailing text s.first + (s.middle.map (leading text)).sum + leading text s.last

section Conditions

variable (text : UInt8 → Bool) (pieces : List (List UInt8))

/-- No stretch over a mistaken piece is longer than the longest run of the
pieces, and that length is reached by a stretch or in a piece that is not
mistaken. -/
def LengthRight : Prop :=
  (∀ s : Stretch text pieces, (∃ piece ∈ s.middle, Mistaken text piece) →
    s.length ≤ longest text pieces.flatten) ∧
  ((∃ s : Stretch text pieces, s.length = longest text pieces.flatten) ∨
    ∃ piece ∈ pieces, ¬ Mistaken text piece ∧
      longest text piece = longest text pieces.flatten)

/-- The lengths that a stretch can have before its last piece is added. -/
def ends : Set ℕ :=
  { n | ∃ first middle, first :: middle <:+ [] :: pieces ∧
    (∀ piece ∈ middle, Whole text piece) ∧
    n = trailing text first + (middle.map (leading text)).sum }

/-- The lengths that the merge compares. -/
def seen : Set ℕ :=
  { n | (∃ s : Stretch text pieces, n = s.length) ∨
    ∃ piece ∈ pieces, ¬ Whole text piece ∧ n = longest text piece }

end Conditions

theorem cons_suffix_concat_iff {α : Type*} {a b : α} {l l' : List α} :
    a :: l <:+ l' ++ [b] ↔ (a = b ∧ l = []) ∨ ∃ m, l = m ++ [b] ∧ a :: m <:+ l' := by
  rw [List.suffix_concat_iff]
  constructor
  · rintro (hnil | ⟨t, heq, ht⟩)
    · exact absurd hnil (List.cons_ne_nil a l)
    · cases t with
      | nil => exact .inl (List.cons.inj heq)
      | cons a' t =>
          obtain ⟨rfl, rfl⟩ := List.cons.inj heq
          exact .inr ⟨t, rfl, ht⟩
  · rintro (⟨rfl, rfl⟩ | ⟨m, rfl, hm⟩)
    · exact .inr ⟨[], rfl, List.nil_suffix⟩
    · exact .inr ⟨a :: m, rfl, hm⟩

section Sets

variable {text : UInt8 → Bool} {pieces : List (List UInt8)} {piece : List UInt8} {n : ℕ}

theorem mem_ends_nil : n ∈ ends text [] ↔ n = 0 := by
  constructor
  · rintro ⟨first, middle, hsuffix, -, rfl⟩
    rcases List.suffix_cons_iff.mp hsuffix with heq | hnil
    · obtain ⟨rfl, rfl⟩ := List.cons.inj heq
      rfl
    · exact absurd (List.suffix_nil.mp hnil) (List.cons_ne_nil _ _)
  · rintro rfl
    exact ⟨[], [], List.suffix_refl _, fun _ h => absurd h List.not_mem_nil, rfl⟩

/-- A piece starts a new stretch, and it is added to one if it passes the test. -/
theorem mem_ends_concat :
    n ∈ ends text (pieces ++ [piece]) ↔
      n = trailing text piece ∨
        Whole text piece ∧ ∃ m ∈ ends text pieces, n = m + leading text piece := by
  constructor
  · rintro ⟨first, middle, hsuffix, hwhole, rfl⟩
    rw [← List.cons_append] at hsuffix
    rcases cons_suffix_concat_iff.mp hsuffix with ⟨rfl, rfl⟩ | ⟨m, rfl, hm⟩
    · exact .inl rfl
    · refine .inr ⟨hwhole piece (List.mem_append_right m List.mem_cons_self), _,
        ⟨first, m, hm, fun p hp => hwhole p (List.mem_append_left _ hp), rfl⟩, ?_⟩
      rw [List.map_append, List.sum_append, List.map_singleton, List.sum_singleton,
        Nat.add_assoc]
  · rintro (rfl | ⟨hwhole, _, ⟨first, middle, hsuffix, hmiddle, rfl⟩, rfl⟩)
    · exact ⟨piece, [], ⟨[] :: pieces, rfl⟩, fun _ h => absurd h List.not_mem_nil, rfl⟩
    · refine ⟨first, middle ++ [piece], ?_, ?_, ?_⟩
      · exact cons_suffix_concat_iff.mpr (.inr ⟨middle, rfl, hsuffix⟩)
      · intro p hp
        rcases List.mem_append.mp hp with hp | hp
        · exact hmiddle p hp
        · exact List.mem_singleton.mp hp ▸ hwhole
      · rw [List.map_append, List.sum_append, List.map_singleton, List.sum_singleton,
          Nat.add_assoc]

theorem mem_seen_nil : n ∉ seen text [] := by
  rintro (⟨s, -⟩ | ⟨p, hp, -⟩)
  · have hlen := s.isInfix.length_le
    rw [List.length_append, List.length_cons, List.length_singleton, List.length_singleton] at hlen
    omega
  · exact absurd hp List.not_mem_nil

/-- A piece ends all stretches at its beginning. -/
theorem mem_seen_concat :
    n ∈ seen text (pieces ++ [piece]) ↔
      n ∈ seen text pieces ∨ (∃ m ∈ ends text pieces, n = m + leading text piece) ∨
        ¬ Whole text piece ∧ n = longest text piece := by
  constructor
  · rintro (⟨⟨first, middle, last, hinfix, hwhole⟩, rfl⟩ | ⟨p, hp, hwhole, rfl⟩)
    · rw [← List.cons_append] at hinfix
      rcases List.infix_concat_iff.mp hinfix with hsuffix | hinfix
      · obtain hnil | ⟨t, heq, ht⟩ := List.suffix_concat_iff.mp hsuffix
        · exact absurd hnil (List.cons_ne_nil _ _)
        · obtain ⟨rfl, rfl⟩ := List.append_singleton_inj.mp heq
          exact .inr (.inl ⟨_, ⟨first, middle, ht, hwhole, rfl⟩, rfl⟩)
      · exact .inl (.inl ⟨⟨first, middle, last, hinfix, hwhole⟩, rfl⟩)
    · rcases List.mem_append.mp hp with hp | hp
      · exact .inl (.inr ⟨p, hp, hwhole, rfl⟩)
      · obtain rfl := List.mem_singleton.mp hp
        exact .inr (.inr ⟨hwhole, rfl⟩)
  · rintro ((⟨s, rfl⟩ | ⟨p, hp, hwhole, rfl⟩) |
      ⟨_, ⟨first, middle, hsuffix, hmiddle, rfl⟩, rfl⟩ | ⟨hwhole, rfl⟩)
    · exact .inl ⟨⟨s.first, s.middle, s.last,
        List.infix_concat_iff.mpr (.inr s.isInfix), s.whole⟩, rfl⟩
    · exact .inr ⟨p, List.mem_append_left _ hp, hwhole, rfl⟩
    · refine .inl ⟨⟨first, middle, piece, ?_, hmiddle⟩, rfl⟩
      rw [← List.cons_append]
      exact List.infix_concat_iff.mpr
        (.inl (List.suffix_concat_iff.mpr (.inr ⟨first :: middle, rfl, hsuffix⟩)))
    · exact .inr ⟨piece, List.mem_append_right _ List.mem_cons_self, hwhole, rfl⟩

end Sets

section Invariant

variable {text : UInt8 → Bool} {r : Counters}

/-- `maxLengthEnd` is the greatest length of a stretch that goes on. -/
theorem exists_isGreatest_ends (text : UInt8 → Bool) (r : Counters)
    (pieces : List (List UInt8)) :
    ∃ e : ℕ, (merge text r pieces).maxLengthEnd = e ∧ IsGreatest (ends text pieces) e := by
  induction pieces using List.reverseRecOn with
  | nil => exact ⟨0, rfl, mem_ends_nil.mpr rfl, fun n hn => (mem_ends_nil.mp hn).le⟩
  | append_singleton pieces piece ih =>
      obtain ⟨e, he, hmem, hmax⟩ := ih
      rw [merge_concat]
      by_cases hwhole : Whole text piece
      · refine ⟨e + leading text piece, ?_, ?_, ?_⟩
        · rw [mergePiece_of_whole (previousEnd_merge text r pieces) hwhole, he]
          rfl
        · exact mem_ends_concat.mpr (.inr ⟨hwhole, e, hmem, rfl⟩)
        · intro n hn
          rcases mem_ends_concat.mp hn with rfl | ⟨-, m, hm, rfl⟩
          · rw [← hwhole.2.1]
            exact Nat.le_add_left _ _
          · exact Nat.add_le_add_right (hmax hm) _
      · refine ⟨trailing text piece, ?_, mem_ends_concat.mpr (.inl rfl), ?_⟩
        · rw [mergePiece_of_not_whole (previousEnd_merge text r pieces) hwhole]
        · intro n hn
          rcases mem_ends_concat.mp hn with rfl | ⟨h, -⟩
          · exact le_refl _
          · exact absurd h hwhole

/-- `max_length` is the greatest length that the merge compares, or it still has
its first value. -/
theorem maxLength_merge (text : UInt8 → Bool) (hr : r.maxLength = -1)
    (pieces : List (List UInt8)) :
    (∀ n ∈ seen text pieces, (n : ℤ) ≤ (merge text r pieces).maxLength) ∧
      ((merge text r pieces).maxLength = -1 ∨
        ∃ n ∈ seen text pieces, (merge text r pieces).maxLength = n) := by
  induction pieces using List.reverseRecOn with
  | nil => exact ⟨fun n hn => absurd hn mem_seen_nil, .inl hr⟩
  | append_singleton pieces piece ih =>
      obtain ⟨hle, hattained⟩ := ih
      obtain ⟨e, he, hmem, hmax⟩ := exists_isGreatest_ends text r pieces
      have hjoin : e + leading text piece ∈ seen text (pieces ++ [piece]) :=
        mem_seen_concat.mpr (.inr (.inl ⟨e, hmem, rfl⟩))
      have hold : ∀ n ∈ seen text pieces, n ∈ seen text (pieces ++ [piece]) :=
        fun n hn => mem_seen_concat.mpr (.inl hn)
      rw [merge_concat]
      by_cases hwhole : Whole text piece
      · rw [mergePiece_of_whole (previousEnd_merge text r pieces) hwhole, he]
        dsimp only
        constructor
        · intro n hn
          rcases mem_seen_concat.mp hn with hn | ⟨m, hm, rfl⟩ | ⟨h, -⟩
          · exact le_max_of_le_left (hle n hn)
          · have := hmax hm
            omega
          · exact absurd hwhole h
        · rcases max_choice (merge text r pieces).maxLength (e + leading text piece)
            with hchoice | hchoice
          · rw [hchoice]
            exact hattained.imp_right fun ⟨n, hn, heq⟩ => ⟨n, hold n hn, heq⟩
          · exact .inr ⟨_, hjoin, hchoice⟩
      · rw [mergePiece_of_not_whole (previousEnd_merge text r pieces) hwhole, he]
        dsimp only
        constructor
        · intro n hn
          rcases mem_seen_concat.mp hn with hn | ⟨m, hm, rfl⟩ | ⟨-, rfl⟩
          · exact le_max_of_le_left (hle n hn)
          · have := hmax hm
            omega
          · omega
        · rcases max_choice (merge text r pieces).maxLength
            (max ((e : ℤ) + leading text piece) (longest text piece)) with hchoice | hchoice
          · rw [hchoice]
            exact hattained.imp_right fun ⟨n, hn, heq⟩ => ⟨n, hold n hn, heq⟩
          · rcases max_choice ((e : ℤ) + leading text piece) (longest text piece)
              with hchoice' | hchoice'
            · exact .inr ⟨_, hjoin, hchoice.trans hchoice'⟩
            · exact .inr ⟨_, mem_seen_concat.mpr (.inr (.inr ⟨hwhole, rfl⟩)),
                hchoice.trans hchoice'⟩

end Invariant

section Runs

variable {text : UInt8 → Bool} {pieces : List (List UInt8)}

/-- A stretch with text in the middle is a run of the pieces. -/
theorem Stretch.length_le {s : Stretch text pieces}
    (h : ∀ piece ∈ s.middle, piece.all text = true) :
    s.length ≤ longest text pieces.flatten := by
  have hall : s.middle.flatten.all text = true := by
    rw [List.all_flatten]
    exact List.all_eq_true.mpr h
  have hsum : (s.middle.map (leading text)).sum = s.middle.flatten.length := by
    rw [List.length_flatten]
    exact congrArg List.sum (List.map_congr_left fun p hp => leading_of_all (h p hp))
  have hinfix : s.first ++ s.middle.flatten ++ s.last <:+: pieces.flatten := by
    obtain ⟨u, v, heq⟩ := s.isInfix
    refine ⟨u.flatten, v.flatten, ?_⟩
    have hflatten := congrArg List.flatten heq
    simpa using hflatten
  rw [Stretch.length, hsum]
  exact le_trans (trailing_add_leading_le_longest hall) (longest_mono hinfix)

/-- The beginning of every piece ends a stretch. -/
theorem exists_stretch (text : UInt8 → Bool) {piece : List UInt8} (h : piece ∈ pieces) :
    ∃ s : Stretch text pieces, leading text piece ≤ s.length := by
  obtain ⟨before, after, rfl⟩ := List.append_of_mem h
  obtain ⟨first, hfirst⟩ : ∃ first, [first] <:+ [] :: before := by
    refine ⟨([] :: before).getLast (List.cons_ne_nil _ _), ([] :: before).dropLast, ?_⟩
    exact List.dropLast_concat_getLast (List.cons_ne_nil _ _)
  have hinfix : [first] ++ [piece] <:+: [] :: (before ++ piece :: after) := by
    obtain ⟨u, hu⟩ := hfirst
    refine ⟨u, after, ?_⟩
    rw [← List.append_assoc, hu]
    simp
  refine ⟨⟨first, [], piece, hinfix, fun _ h => absurd h List.not_mem_nil⟩, ?_⟩
  exact Nat.le_add_left _ _

/-- A piece of text or one that fails the test counts in full. -/
theorem longest_le_of_not_mistaken {piece : List UInt8} (hmem : piece ∈ pieces)
    (h : ¬ Mistaken text piece) :
    ∃ n ∈ seen text pieces, longest text piece ≤ n := by
  by_cases hwhole : Whole text piece
  · have hall : piece.all text = true := by
      by_contra hall
      exact h ⟨hwhole, hall⟩
    obtain ⟨s, hs⟩ := exists_stretch text hmem
    exact ⟨s.length, .inl ⟨s, rfl⟩, (longest_of_all hall).le.trans hs⟩
  · exact ⟨_, .inr ⟨piece, hmem, hwhole, rfl⟩, le_refl _⟩

end Runs

/-- In a file with text, `mmap_read` finds the length of the longest run, as
`mmap_regular_read` does, exactly when the lengths are right. -/
theorem maxLength_mmapRead_eq_iff {text : UInt8 → Bool} {numberOfThreads : ThreadCount}
    {file : File} (htext : ∃ c ∈ file.bytes, text c = true) :
    (mmapRead text numberOfThreads file Counters.start).2.maxLength =
        (mmapRegularRead text file Counters.start).2.maxLength ↔
      LengthRight text (pieces numberOfThreads file) := by
  have hne : file.bytes ≠ [] := by
    obtain ⟨c, hc, -⟩ := htext
    exact List.ne_nil_of_mem hc
  have hany : file.bytes.any text = true := List.any_eq_true.mpr htext
  obtain ⟨hle, hattained⟩ := maxLength_merge text (r := Counters.start) rfl
    (pieces numberOfThreads file)
  have hmax : max Counters.start.maxLength (longest text file.bytes) =
      longest text file.bytes := max_eq_right (by simp only [Counters.start]; omega)
  rw [mmapRead_eq hne, mmapRegularRead, if_neg hne]
  dsimp only
  rw [scan_maxLength rfl, if_pos hany, hmax, LengthRight, ← flatten_pieces numberOfThreads file]
  set P := pieces numberOfThreads file with hP
  constructor
  · intro heq
    rw [heq] at hle hattained
    refine ⟨fun s _ => Int.ofNat_le.mp (hle _ (.inl ⟨s, rfl⟩)), ?_⟩
    rcases hattained with hneg | ⟨n, ⟨s, rfl⟩ | ⟨piece, hmem, hwhole, rfl⟩, hn⟩
    · omega
    · exact .inl ⟨s, (Int.ofNat_inj.mp hn).symm⟩
    · exact .inr ⟨piece, hmem, fun h => hwhole h.1, (Int.ofNat_inj.mp hn).symm⟩
  · rintro ⟨hover, hfound⟩
    have hlower : ∃ n ∈ seen text P, longest text P.flatten ≤ n := by
      rcases hfound with ⟨s, hs⟩ | ⟨piece, hmem, hnot, hs⟩
      · exact ⟨s.length, .inl ⟨s, rfl⟩, hs.ge⟩
      · exact hs ▸ longest_le_of_not_mistaken hmem hnot
    have hupper : ∀ n ∈ seen text P, n ≤ longest text P.flatten := by
      rintro n (⟨s, rfl⟩ | ⟨piece, hmem, -, rfl⟩)
      · by_cases h : ∃ piece ∈ s.middle, Mistaken text piece
        · exact hover s h
        · refine Stretch.length_le fun piece hpiece => ?_
          by_contra hall
          exact h ⟨piece, hpiece, s.whole piece hpiece, hall⟩
      · exact longest_mono (List.infix_of_mem_flatten hmem)
    obtain ⟨n, hn, hnle⟩ := hlower
    have hseen := hle n hn
    rcases hattained with hneg | ⟨m, hm, heq⟩
    · omega
    · have := hupper m hm
      omega

/-- One thread. -/
def oneThread : ThreadCount := ⟨1, by decide, by decide⟩

/-- A long run between two single letters, with gaps. -/
def innerRun : File := ⟨[97, 0, 98, 98, 98, 98, 98, 98, 98, 0, 97], by decide⟩

/-- A run that crosses the seam of two ranges. -/
def seamRun : File := ⟨[97, 0, 98, 98, 98, 98, 98, 0, 97, 0], by decide⟩

theorem maxLength_mmapRead_eq_iff_seamRun : LengthRight isText (pieces twoThreads seamRun) := by
  apply (maxLength_mmapRead_eq_iff ⟨97, by decide, by decide⟩).mp
  decide

/-- One thread reports the length one where the longest run has seven bytes, as
the range of the whole file is mistaken. -/
theorem maxLength_mmapRead_ne_innerRun :
    (∃ c ∈ innerRun.bytes, isText c = true) ∧
      (mmapRead isText oneThread innerRun Counters.start).2.maxLength = 1 ∧
      (mmapRegularRead isText innerRun Counters.start).2.maxLength = 7 := by
  decide

end TextScan

end OperatingSystems
