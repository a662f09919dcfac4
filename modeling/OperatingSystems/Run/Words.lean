import Mathlib.Data.List.TakeWhile
import OperatingSystems.Run.Shape

/-!
# Laws of runs in words

The number of long runs and the length of the longest run of `x ++ y` are those
of `x` and of `y`, up to the run that the two words share at the seam. Two words
with the same numbers can replace each other in every context exactly when both
or neither consist only of letters of `p`, as soon as there is such a letter.
-/

namespace OperatingSystems

namespace Run

variable {α : Type*} {p : α → Bool} {k : ℕ}

section Append

variable (p k) (x y : List α)

theorem strings_append :
    strings p k (x ++ y) + long k (trailing p x) + long k (leading p y) =
      strings p k x + strings p k y + long k (trailing p x + leading p y) := by
  rw [strings_eq, strings_eq, strings_eq, trailing_eq p k, leading_eq p k, shape_append]
  exact Shape.strings_append k _ _

theorem longest_append :
    longest p (x ++ y) =
      max (max (longest p x) (longest p y)) (trailing p x + leading p y) := by
  rw [longest_eq p 0, longest_eq p 0, longest_eq p 0, trailing_eq p 0, leading_eq p 0,
    shape_append]
  exact Shape.longest_append 0 _ _

theorem leading_append :
    leading p (x ++ y) =
      if x.all p = true then leading p x + leading p y else leading p x := by
  rw [leading_eq p 0, leading_eq p 0, leading_eq p 0, shape_append, Shape.leading_append]
  exact if_congr (shape_isSolid p 0 x) rfl rfl

theorem trailing_append :
    trailing p (x ++ y) =
      if y.all p = true then trailing p x + trailing p y else trailing p y := by
  rw [trailing_eq p 0, trailing_eq p 0, trailing_eq p 0, shape_append, Shape.trailing_append]
  exact if_congr (shape_isSolid p 0 y) rfl rfl

end Append

section Ends

variable {l : List α}

@[simp] theorem strings_nil (hk : 1 ≤ k) : strings p k [] = 0 := by
  rw [strings_eq]
  exact if_neg (by omega)

@[simp] theorem longest_nil : longest p [] = 0 := rfl

@[simp] theorem leading_nil : leading p [] = 0 := rfl

@[simp] theorem trailing_nil : trailing p [] = 0 := rfl

/-- A word of letters of `p` is one run. -/
theorem leading_of_all (h : l.all p = true) : leading p l = l.length := by
  rw [leading, List.takeWhile_eq_self_iff.mpr fun a ha => List.all_eq_true.mp h a ha]

theorem trailing_of_all (h : l.all p = true) : trailing p l = l.length := by
  rw [trailing, List.takeWhile_eq_self_iff.mpr fun a ha =>
    List.all_eq_true.mp h a (List.mem_reverse.mp ha), List.length_reverse]

theorem strings_of_all (h : l.all p = true) : strings p k l = long k (leading p l) := by
  have hsolid := (shape_isSolid p k l).mpr h
  rw [strings_eq, leading_eq p k]
  cases hs : shape p k l with
  | solid n => rfl
  | broken l c i t =>
      rw [hs] at hsolid
      exact hsolid.elim

theorem longest_of_all (h : l.all p = true) : longest p l = leading p l := by
  have hsolid := (shape_isSolid p 0 l).mpr h
  rw [longest_eq p 0, leading_eq p 0]
  cases hs : shape p 0 l with
  | solid n => rfl
  | broken l c i t =>
      rw [hs] at hsolid
      exact hsolid.elim

/-- The two ends of a word with a gap are different runs. -/
theorem long_ends_le (h : l.all p ≠ true) :
    long k (leading p l) + long k (trailing p l) ≤ strings p k l := by
  have hsolid := mt (shape_isSolid p k l).mp h
  rw [strings_eq, leading_eq p k, trailing_eq p k]
  cases hs : shape p k l with
  | solid n =>
      rw [hs] at hsolid
      exact absurd trivial hsolid
  | broken l c i t =>
      simp only [Shape.leading, Shape.trailing, Shape.strings]
      omega

theorem trailing_le_append (x y : List α) : trailing p y ≤ trailing p (x ++ y) := by
  rw [trailing_append]
  split <;> omega

theorem trailing_le_longest : trailing p l ≤ longest p l := by
  rw [longest_eq p 0, trailing_eq p 0]
  cases shape p 0 l <;> simp [Shape.trailing, Shape.longest]

theorem long_le_one (n : ℕ) : long k n ≤ 1 := by
  unfold long
  split <;> omega

theorem long_eq_zero_iff {n : ℕ} : long k n = 0 ↔ n < k := by
  unfold long
  split <;> omega

theorem longest_mono {x y : List α} (h : x <:+: y) : longest p x ≤ longest p y := by
  obtain ⟨u, v, rfl⟩ := h
  rw [longest_append, longest_append]
  omega

/-- A run that crosses a word of letters of `p`. -/
theorem trailing_add_leading_le_longest {x y z : List α} (h : y.all p = true) :
    trailing p x + y.length + leading p z ≤ longest p (x ++ y ++ z) := by
  rw [longest_append, trailing_append, if_pos h, trailing_of_all h]
  exact le_max_right _ _

theorem long_le_long_iff {m n : ℕ} : long k m ≤ long k n ↔ (k ≤ m → k ≤ n) := by
  unfold long
  by_cases hm : k ≤ m <;> by_cases hn : k ≤ n <;> simp [hm, hn]

theorem long_mono {m n : ℕ} (h : m ≤ n) : long k m ≤ long k n :=
  long_le_long_iff.mpr fun hm => hm.trans h

/-- Without letters of `p` all runs are empty. -/
theorem eq_nil_of_mem_runs (h : ∀ a ∈ l, p a = false) {r : List α} (hr : r ∈ runs p l) :
    r = [] := by
  unfold runs at hr
  induction l with
  | nil => simpa using hr
  | cons a l ih =>
      rw [List.splitOnP_cons_eq_if_modifyHead, h a List.mem_cons_self] at hr
      rcases List.mem_cons.mp (by simpa using hr) with hr | hr
      · exact hr
      · exact ih (fun b hb => h b (List.mem_cons_of_mem a hb)) hr

theorem strings_of_none (hk : 1 ≤ k) (h : ∀ a ∈ l, p a = false) : strings p k l = 0 := by
  refine List.countP_eq_zero.mpr fun r hr => ?_
  rw [eq_nil_of_mem_runs h hr, decide_eq_true_eq, List.length_nil]
  omega

theorem longest_of_none (h : ∀ a ∈ l, p a = false) : longest p l = 0 := by
  have hzero : ∀ ls : List (List α), (∀ r ∈ ls, r = []) →
      (ls.map List.length).foldr max 0 = 0 := by
    intro ls hls
    induction ls with
    | nil => rfl
    | cons r ls ih =>
        rw [List.map_cons, List.foldr_cons, ih fun r hr => hls r (List.mem_cons_of_mem _ hr),
          hls r List.mem_cons_self]
        rfl
  exact hzero _ fun r hr => eq_nil_of_mem_runs h hr

theorem le_foldr_max {n : ℕ} {ns : List ℕ} (h : n ∈ ns) : n ≤ ns.foldr max 0 := by
  induction ns with
  | nil => exact absurd h List.not_mem_nil
  | cons m ns ih =>
      rcases List.mem_cons.mp h with rfl | h
      · exact le_max_left _ _
      · exact (ih h).trans (le_max_right _ _)

theorem foldr_max_mem {ns : List ℕ} (h : 0 < ns.foldr max 0) : ns.foldr max 0 ∈ ns := by
  induction ns with
  | nil => exact absurd h (lt_irrefl 0)
  | cons m ns ih =>
      rw [List.foldr_cons] at h ⊢
      rcases le_total (ns.foldr max 0) m with hle | hle
      · rw [max_eq_left hle]
        exact List.mem_cons_self
      · rw [max_eq_right hle] at h ⊢
        exact List.mem_cons_of_mem _ (ih h)

/-- A letter of `p` is in a run. -/
theorem longest_pos (h : ∃ a ∈ l, p a = true) : 0 < longest p l := by
  obtain ⟨a, ha, hp⟩ := h
  obtain ⟨x, y, rfl⟩ := List.append_of_mem ha
  have hone : longest p [a] = 1 := by
    rw [longest_of_all (by simp [hp]), leading_of_all (by simp [hp])]
    rfl
  have hmono : longest p [a] ≤ longest p (x ++ a :: y) := longest_mono ⟨x, y, by simp⟩
  omega

end Ends

section Letters

variable (p) (l : List α) (a : α)

theorem trailing_concat :
    trailing p (l ++ [a]) = if p a = true then trailing p l + 1 else 0 := by
  rw [trailing, List.reverse_append, List.reverse_singleton, List.singleton_append,
    List.takeWhile_cons]
  by_cases ha : p a = true
  · rw [if_pos ha, if_pos ha, List.length_cons]
    rfl
  · rw [if_neg ha, if_neg ha, List.length_nil]

theorem leading_singleton : leading p [a] = if p a = true then 1 else 0 := by
  rw [leading, List.takeWhile_cons]
  split <;> rfl

theorem leading_concat :
    leading p (l ++ [a]) =
      if l.all p = true ∧ p a = true then leading p l + 1 else leading p l := by
  rw [leading_append, leading_singleton]
  by_cases hl : l.all p = true <;> by_cases ha : p a = true <;> simp [hl, ha]

/-- A letter completes a long run when it is its `k`-th letter. -/
theorem strings_concat (hk : 2 ≤ k) :
    strings p k (l ++ [a]) =
      strings p k l + if p a = true ∧ trailing p l + 1 = k then 1 else 0 := by
  have hletter : strings p k [a] = 0 := by
    rw [strings_eq, shape, shape, Shape.append_solid_zero, letter]
    split <;> simp only [Shape.strings, long] <;> split <;> omega
  have happ := strings_append p k l [a]
  rw [hletter, leading_singleton] at happ
  by_cases ha : p a = true
  · rw [if_pos ha] at happ
    simp only [ha, true_and, long] at happ ⊢
    split_ifs at happ ⊢ <;> omega
  · rw [if_neg ha] at happ
    rw [if_neg fun h => ha h.1]
    simp only [long] at happ
    split_ifs at happ <;> omega

theorem longest_concat :
    longest p (l ++ [a]) =
      if p a = true then max (longest p l) (trailing p l + 1) else longest p l := by
  have htrail := trailing_le_longest (p := p) (l := l)
  have hletter : longest p [a] = if p a = true then 1 else 0 := by
    rw [longest_eq p 0, shape, shape, Shape.append_solid_zero, letter]
    split <;> rfl
  rw [longest_append, hletter, leading_singleton]
  split <;> omega

end Letters

section Contexts

variable {x y : List α}

/-- Two words that count the same in every context. -/
def Interchangeable (p : α → Bool) (k : ℕ) (x y : List α) : Prop :=
  ∀ u v, strings p k (u ++ x ++ v) = strings p k (u ++ y ++ v) ∧
    longest p (u ++ x ++ v) = longest p (u ++ y ++ v)

theorem Interchangeable.symm (h : Interchangeable p k x y) : Interchangeable p k y x :=
  fun u v => ⟨(h u v).1.symm, (h u v).2.symm⟩

/-- Two words that have their numbers and their being solid in common. -/
theorem interchangeable_of_same (hstrings : strings p k x = strings p k y)
    (hlead : leading p x = leading p y) (htrail : trailing p x = trailing p y)
    (hlongest : longest p x = longest p y) (hall : x.all p = true ↔ y.all p = true) :
    Interchangeable p k x y := by
  intro u v
  have hleadx := leading_append p x v
  have hleady := leading_append p y v
  have hsame : leading p (x ++ v) = leading p (y ++ v) := by
    rw [hleadx, hleady, hlead]
    exact if_congr hall rfl rfl
  constructor
  · have hx := strings_append p k x v
    have hy := strings_append p k y v
    have hux := strings_append p k u (x ++ v)
    have huy := strings_append p k u (y ++ v)
    rw [hstrings, htrail] at hx
    rw [hsame] at hux
    rw [List.append_assoc, List.append_assoc]
    omega
  · rw [List.append_assoc, List.append_assoc, longest_append p u, longest_append p u,
      longest_append p x, longest_append p y, hlongest, htrail, hsame]

/-- A solid word and one with a gap differ between two long runs. -/
theorem not_interchangeable {a : α} (ha : p a = true) (hx : x.all p = true)
    (hy : y.all p ≠ true) : ¬ Interchangeable p k x y := by
  intro h
  have hu : (List.replicate k a).all p = true :=
    List.all_eq_true.mpr fun b hb => (List.eq_of_mem_replicate hb) ▸ ha
  have hstrings := (h (List.replicate k a) (List.replicate k a)).1
  have hall : (List.replicate k a ++ x ++ List.replicate k a).all p = true := by
    rw [List.all_append, List.all_append, hu, hx]
    rfl
  have hgap : (List.replicate k a ++ y ++ List.replicate k a).all p ≠ true := by
    rw [List.all_append, List.all_append, hu]
    simpa using hy
  have hends := long_ends_le (k := k) hgap
  have hlead : k ≤ leading p (List.replicate k a ++ y ++ List.replicate k a) := by
    rw [List.append_assoc, leading_append, if_pos hu, leading_of_all hu, List.length_replicate]
    exact Nat.le_add_right _ _
  have htrail : k ≤ trailing p (List.replicate k a ++ y ++ List.replicate k a) := by
    rw [trailing_append, if_pos hu, trailing_of_all hu, List.length_replicate]
    exact Nat.le_add_left _ _
  rw [strings_of_all hall] at hstrings
  rw [long, long, if_pos hlead, if_pos htrail, ← hstrings] at hends
  have hle := long_le_one (k := k)
    (leading p (List.replicate k a ++ x ++ List.replicate k a))
  omega

/-- Words with the same numbers can replace each other in every context exactly
when both or neither are solid, or there is nothing to count. -/
theorem interchangeable_iff (hk : 1 ≤ k) (hstrings : strings p k x = strings p k y)
    (hlead : leading p x = leading p y) (htrail : trailing p x = trailing p y)
    (hlongest : longest p x = longest p y) :
    Interchangeable p k x y ↔
      ((x.all p = true ↔ y.all p = true) ∨ ∀ a, p a = false) := by
  constructor
  · intro h
    by_contra hnot
    rw [not_or, not_forall] at hnot
    obtain ⟨hall, a, ha⟩ := hnot
    have ha : p a = true := by simpa using ha
    by_cases hx : x.all p = true
    · exact not_interchangeable ha hx (fun hy => hall (iff_of_true hx hy)) h
    · have hy : y.all p = true := by
        by_contra hy
        exact hall (iff_of_false hx hy)
      exact not_interchangeable ha hy hx h.symm
  · rintro (hall | hnone)
    · exact interchangeable_of_same hstrings hlead htrail hlongest hall
    · intro u v
      have hnone : ∀ l : List α, ∀ a ∈ l, p a = false := fun _ a _ => hnone a
      rw [strings_of_none hk (hnone _), strings_of_none hk (hnone _),
        longest_of_none (hnone _), longest_of_none (hnone _)]
      exact ⟨rfl, rfl⟩

end Contexts

end Run

end OperatingSystems
