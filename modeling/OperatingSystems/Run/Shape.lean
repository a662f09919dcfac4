import Mathlib.Data.List.Basic
import Mathlib.Data.List.Induction
import Mathlib.Order.Basic
import Mathlib.Tactic.Ring

/-!
# Runs of letters and their concatenation

The runs of a word are the pieces between the letters that do not satisfy `p`.
`strings` counts the runs of length at least `k` and `longest` is the length of
the longest one; `leading` and `trailing` are the lengths of the runs at the two
ends. A `Shape` keeps of a word what matters for these numbers when the word is
continued on either side, and shapes are concatenated like the words. The laws
of `strings`, `longest`, `leading` and `trailing` for `x ++ y` are read off from
there.
-/

namespace OperatingSystems

namespace Run

variable {α : Type*}

/-- The pieces of a word between the letters that do not satisfy `p`. -/
def runs (p : α → Bool) (l : List α) : List (List α) :=
  l.splitOnP fun a => !p a

/-- The number of runs of length at least `k`. -/
def strings (p : α → Bool) (k : ℕ) (l : List α) : ℕ :=
  (runs p l).countP fun r => k ≤ r.length

/-- The length of the longest run. -/
def longest (p : α → Bool) (l : List α) : ℕ :=
  ((runs p l).map List.length).foldr max 0

/-- The length of the run at the beginning. -/
def leading (p : α → Bool) (l : List α) : ℕ := (l.takeWhile p).length

/-- The length of the run at the end. -/
def trailing (p : α → Bool) (l : List α) : ℕ := (l.reverse.takeWhile p).length

/-- The number of runs that a run of length `n` adds. -/
def long (k n : ℕ) : ℕ := if k ≤ n then 1 else 0

/-- A word of `n` letters that all satisfy `p`, or one with a gap: the runs at
its ends, and the number and the greatest length of the runs between. -/
inductive Shape where
  | solid (n : ℕ)
  | broken (lead count inner trail : ℕ)
  deriving DecidableEq, Repr

namespace Shape

variable (k : ℕ)

def append : Shape → Shape → Shape
  | solid m, solid n => solid (m + n)
  | solid m, broken l c i t => broken (m + l) c i t
  | broken l c i t, solid n => broken l c i (t + n)
  | broken l c i t, broken l' c' i' t' =>
      broken l (c + long k (t + l') + c') (max i (max (t + l') i')) t'

def strings : Shape → ℕ
  | solid n => long k n
  | broken l c _ t => long k l + c + long k t

def longest : Shape → ℕ
  | solid n => n
  | broken l _ i t => max l (max i t)

def leading : Shape → ℕ
  | solid n => n
  | broken l _ _ _ => l

def trailing : Shape → ℕ
  | solid n => n
  | broken _ _ _ t => t

def IsSolid : Shape → Prop
  | solid _ => True
  | broken _ _ _ _ => False

instance (s : Shape) : Decidable s.IsSolid := by
  cases s
  · exact isTrue trivial
  · exact isFalse id

theorem append_assoc (s t u : Shape) :
    append k (append k s t) u = append k s (append k t u) := by
  cases s <;> cases t <;> cases u <;> simp only [append, Nat.add_assoc, Nat.max_assoc]

theorem solid_zero_append (s : Shape) : append k (solid 0) s = s := by
  cases s <;> simp [append]

theorem append_solid_zero (s : Shape) : append k s (solid 0) = s := by
  cases s <;> simp [append]

theorem strings_append (s t : Shape) :
    (append k s t).strings k + long k s.trailing + long k t.leading =
      s.strings k + t.strings k + long k (s.trailing + t.leading) := by
  cases s <;> cases t <;> simp only [append, strings, leading, trailing] <;> ring

theorem longest_append (s u : Shape) :
    (append k s u).longest =
      max (max s.longest u.longest) (s.trailing + u.leading) := by
  cases s with
  | solid m => cases u <;> simp only [append, longest, leading, trailing] <;> omega
  | broken l c i t =>
      cases u with
      | solid n =>
          simp only [append, longest, leading, trailing]
          omega
      | broken l' c' i' t' =>
          -- the runs that meet are no longer than the one they make
          have hends : max (max t l') (t + l') = t + l' := by omega
          simp only [append, longest, leading, trailing]
          rw [← hends]
          ac_rfl

theorem leading_append (s t : Shape) :
    (append k s t).leading = if s.IsSolid then s.leading + t.leading else s.leading := by
  cases s <;> cases t <;> simp [append, leading, IsSolid]

theorem trailing_append (s t : Shape) :
    (append k s t).trailing = if t.IsSolid then s.trailing + t.trailing else t.trailing := by
  cases s <;> cases t <;> simp [append, trailing, IsSolid]

theorem isSolid_append (s t : Shape) :
    (append k s t).IsSolid ↔ s.IsSolid ∧ t.IsSolid := by
  cases s <;> cases t <;> simp [append, IsSolid]

end Shape

section Words

variable (p : α → Bool) (k : ℕ)

/-- The shape of a word of one letter. -/
def letter (a : α) : Shape :=
  if p a then .solid 1 else .broken 0 0 0 0

/-- The shape of a word. -/
def shape : List α → Shape
  | [] => .solid 0
  | a :: l => Shape.append k (letter p a) (shape l)

theorem shape_append (x y : List α) :
    shape p k (x ++ y) = Shape.append k (shape p k x) (shape p k y) := by
  induction x with
  | nil => exact (Shape.solid_zero_append k _).symm
  | cons a x ih =>
      rw [List.cons_append, shape, shape, ih, Shape.append_assoc]

theorem shape_isSolid (l : List α) : (shape p k l).IsSolid ↔ l.all p = true := by
  induction l with
  | nil => simp [shape, Shape.IsSolid]
  | cons a l ih =>
      rw [shape, Shape.isSolid_append, ih, List.all_cons, Bool.and_eq_true]
      unfold letter
      split <;> simp_all [Shape.IsSolid]

/-- The first run, and the count and the greatest length of the others. -/
theorem runs_shape (l : List α) :
    ∃ r rest, runs p l = r :: rest ∧ r.length = (shape p k l).leading ∧
      (shape p k l).strings k =
        long k r.length + rest.countP (fun r => k ≤ r.length) ∧
      (shape p k l).longest = max r.length ((rest.map List.length).foldr max 0) := by
  induction l with
  | nil =>
      exact ⟨[], [], List.splitOnP_nil, rfl, by simp [shape, Shape.strings], by
        simp [shape, Shape.longest]⟩
  | cons a l ih =>
      obtain ⟨r, rest, hruns, hlead, hstrings, hlongest⟩ := ih
      by_cases ha : p a = true
      · have hletter : letter p a = .solid 1 := if_pos ha
        refine ⟨a :: r, rest, ?_, ?_, ?_, ?_⟩
        · unfold runs at hruns ⊢
          rw [List.splitOnP_cons_eq_if_modifyHead, hruns]
          simp [ha]
        · rw [shape, hletter, List.length_cons, hlead]
          cases shape p k l <;> simp only [Shape.append, Shape.leading] <;> ring
        · rw [shape, hletter, List.length_cons]
          cases hs : shape p k l <;>
            simp only [hs, Shape.append, Shape.strings, Shape.leading] at hstrings hlead ⊢ <;>
            rw [hlead] at hstrings ⊢ <;> rw [Nat.add_comm 1] <;> omega
        · rw [shape, hletter, List.length_cons]
          cases hs : shape p k l <;>
            simp only [hs, Shape.append, Shape.longest, Shape.leading] at hlongest hlead ⊢ <;>
            omega
      · have hletter : letter p a = .broken 0 0 0 0 := if_neg ha
        refine ⟨[], r :: rest, ?_, ?_, ?_, ?_⟩
        · unfold runs at hruns ⊢
          rw [List.splitOnP_cons_eq_if_modifyHead, hruns]
          simp [ha]
        · rw [shape, hletter]
          cases shape p k l <;> simp [Shape.append, Shape.leading]
        · have hcount : (if decide (k ≤ r.length) = true then 1 else 0) = long k r.length := by
            simp [long]
          rw [shape, hletter, List.countP_cons, hcount, List.length_nil]
          cases hs : shape p k l <;>
            simp only [hs, Shape.append, Shape.strings, Shape.leading, Nat.zero_add]
              at hstrings hlead ⊢ <;>
            rw [hlead] at hstrings ⊢ <;> omega
        · rw [shape, hletter, List.map_cons, List.foldr_cons, List.length_nil]
          cases hs : shape p k l <;>
            simp only [hs, Shape.append, Shape.longest, Shape.leading] at hlongest hlead ⊢ <;>
            omega

theorem strings_eq (l : List α) : strings p k l = (shape p k l).strings k := by
  obtain ⟨r, rest, hruns, -, hstrings, -⟩ := runs_shape p k l
  rw [hstrings, strings, hruns, List.countP_cons, Nat.add_comm]
  simp [long]

theorem longest_eq (l : List α) : longest p l = (shape p k l).longest := by
  obtain ⟨r, rest, hruns, -, -, hlongest⟩ := runs_shape p k l
  rw [hlongest, longest, hruns]
  rfl

theorem leading_eq (l : List α) : leading p l = (shape p k l).leading := by
  induction l with
  | nil => rfl
  | cons a l ih =>
      rw [shape, Shape.leading_append, ← ih]
      by_cases ha : p a = true
      · simp [leading, letter, ha, Shape.IsSolid, Shape.leading, Nat.add_comm]
      · simp [leading, letter, ha, Shape.IsSolid, Shape.leading]

theorem trailing_eq (l : List α) : trailing p l = (shape p k l).trailing := by
  induction l using List.reverseRecOn with
  | nil => rfl
  | append_singleton l a ih =>
      rw [shape_append, Shape.trailing_append, ← ih]
      by_cases ha : p a = true
      · simp [trailing, shape, letter, ha, Shape.IsSolid, Shape.trailing, Shape.append]
      · simp [trailing, shape, letter, ha, Shape.IsSolid, Shape.trailing, Shape.append]

end Words

end Run

end OperatingSystems
