import Mathlib.Data.List.Perm.Basic
import OperatingSystems.Run.Words

/-!
# The runs of a word as its maximal pieces

The runs of a word that are not empty are the maximal pieces whose letters all
satisfy `p`, in their order. A word with a letter between that does not satisfy `p`
has the pieces of its two parts, and this determines them.
-/

namespace OperatingSystems

namespace Run

variable {α : Type*} {p : α → Bool}

/-- The letters from position `i` up to `j` satisfy `p`, and the letters next to
them do not. -/
structure MaximalPiece (p : α → Bool) (l : List α) (i j : ℕ) : Prop where
  lt : i < j
  le : j ≤ l.length
  inside : ∀ k a, i ≤ k → k < j → l[k]? = some a → p a = true
  before : ∀ k a, i = k + 1 → l[k]? = some a → p a = false
  after : ∀ a, l[j]? = some a → p a = false

/-- The maximal pieces of a word, in their order. -/
def Pieces (p : α → Bool) (l : List α) (pieces : List (List α)) : Prop :=
  ∃ bounds : List (ℕ × ℕ), bounds.Pairwise (fun x y => x.1 < y.1) ∧
    (∀ i j, (i, j) ∈ bounds ↔ MaximalPiece p l i j) ∧
    pieces = bounds.map fun x => (l.drop x.1).take (x.2 - x.1)

section Split

variable {x y : List α} {s : α} {i j : ℕ}

theorem getElem?_left {k : ℕ} (h : k < x.length) : (x ++ s :: y)[k]? = x[k]? :=
  List.getElem?_append_left h

theorem getElem?_right (k : ℕ) : (x ++ s :: y)[x.length + 1 + k]? = y[k]? := by
  rw [List.getElem?_append_right (by omega)]
  have hk : x.length + 1 + k - x.length = k + 1 := by omega
  rw [hk, List.getElem?_cons_succ]

/-- A piece of the first part. -/
theorem MaximalPiece.left_iff (hs : p s = false) (hj : j ≤ x.length) :
    MaximalPiece p (x ++ s :: y) i j ↔ MaximalPiece p x i j := by
  constructor
  · intro h
    have hlt := h.lt
    refine ⟨hlt, hj, fun k a hk hk' ha => h.inside k a hk hk' ?_, fun k a hk ha =>
      h.before k a hk ?_, fun a ha => h.after a ?_⟩
    · rwa [getElem?_left (by omega)]
    · rwa [getElem?_left (by omega)]
    · rwa [getElem?_left (List.getElem?_eq_some_iff.mp ha).1]
  · intro h
    have hlt := h.lt
    refine ⟨hlt, by simp; omega, fun k a hk hk' ha => h.inside k a hk hk' ?_, fun k a hk ha =>
      h.before k a hk ?_, fun a ha => ?_⟩
    · rwa [getElem?_left (by omega)] at ha
    · rwa [getElem?_left (by omega)] at ha
    · rcases hj.lt_or_eq with hj' | rfl
      · rw [getElem?_left hj'] at ha
        exact h.after a ha
      · simp only [List.getElem?_append_right (le_refl x.length), Nat.sub_self,
          List.getElem?_cons_zero, Option.some.injEq] at ha
        rwa [← ha]

/-- A piece of the second part. -/
theorem MaximalPiece.right_iff (hs : p s = false) :
    MaximalPiece p (x ++ s :: y) (x.length + 1 + i) (x.length + 1 + j) ↔
      MaximalPiece p y i j := by
  constructor
  · intro h
    have hlt := h.lt
    have hle := h.le
    rw [List.length_append, List.length_cons] at hle
    refine ⟨by omega, by omega, fun k a hk hk' ha => ?_, fun k a hk ha => ?_, fun a ha => ?_⟩
    · exact h.inside (x.length + 1 + k) a (by omega) (by omega) (by rwa [getElem?_right])
    · exact h.before (x.length + 1 + k) a (by omega) (by rwa [getElem?_right])
    · exact h.after a (by rwa [getElem?_right])
  · intro h
    have hlt := h.lt
    have hle := h.le
    refine ⟨by omega, by rw [List.length_append, List.length_cons]; omega,
      fun k a hk hk' ha => ?_, fun k a hk ha => ?_, fun a ha => ?_⟩
    · obtain ⟨k', rfl⟩ : ∃ k', k = x.length + 1 + k' := ⟨k - (x.length + 1), by omega⟩
      rw [getElem?_right] at ha
      exact h.inside k' a (by omega) (by omega) ha
    · by_cases hzero : i = 0
      · obtain rfl : k = x.length := by omega
        simp only [List.getElem?_append_right (le_refl x.length), Nat.sub_self,
          List.getElem?_cons_zero, Option.some.injEq] at ha
        rwa [← ha]
      · obtain ⟨k', rfl⟩ : ∃ k', k = x.length + 1 + k' := ⟨k - (x.length + 1), by omega⟩
        rw [getElem?_right] at ha
        exact h.before k' a (by omega) ha
    · rw [getElem?_right] at ha
      exact h.after a ha

/-- No piece contains the letter between. -/
theorem MaximalPiece.beside (h : MaximalPiece p (x ++ s :: y) i j) (hs : p s = false) :
    j ≤ x.length ∨ x.length + 1 ≤ i := by
  by_contra hno
  have hmid := h.inside x.length s (by omega) (by omega) (by simp)
  rw [hs] at hmid
  contradiction

/-- The pieces of a word with a letter between are those of its two parts. -/
theorem Pieces.append_cons {tx ty : List (List α)} (hs : p s = false) (hx : Pieces p x tx)
    (hy : Pieces p y ty) : Pieces p (x ++ s :: y) (tx ++ ty) := by
  obtain ⟨bx, hsorted, hmem, rfl⟩ := hx
  obtain ⟨b, hsorted', hmem', rfl⟩ := hy
  obtain ⟨shift, hshift⟩ : ∃ shift : ℕ × ℕ → ℕ × ℕ,
      shift = fun q => (x.length + 1 + q.1, x.length + 1 + q.2) := ⟨_, rfl⟩
  have hle : ∀ q ∈ bx, q.1 < q.2 ∧ q.2 ≤ x.length := fun q hq => by
    have h := (hmem q.1 q.2).mp hq
    exact ⟨h.lt, h.le⟩
  refine ⟨bx ++ b.map shift, ?_, fun i j => ?_, ?_⟩
  · refine List.pairwise_append.mpr ⟨hsorted, List.pairwise_map.mpr ?_, ?_⟩
    · refine hsorted'.imp fun {q r} hqr => ?_
      simp only [hshift]
      omega
    · intro q hq r hr
      obtain ⟨r', -, rfl⟩ := List.mem_map.mp hr
      have hq := hle q hq
      simp only [hshift]
      omega
  · rw [List.mem_append, hmem, List.mem_map]
    constructor
    · rintro (h | ⟨⟨i', j'⟩, hq, heq⟩)
      · exact (MaximalPiece.left_iff hs h.le).mpr h
      · rw [hshift] at heq
        obtain ⟨rfl, rfl⟩ := Prod.mk.inj heq
        exact (MaximalPiece.right_iff hs).mpr ((hmem' i' j').mp hq)
    · intro h
      rcases h.beside hs with hj | hi
      · exact .inl ((MaximalPiece.left_iff hs hj).mp h)
      · have hlt := h.lt
        obtain ⟨i', rfl⟩ : ∃ i', i = x.length + 1 + i' := ⟨i - (x.length + 1), by omega⟩
        obtain ⟨j', rfl⟩ : ∃ j', j = x.length + 1 + j' := ⟨j - (x.length + 1), by omega⟩
        exact .inr ⟨(i', j'), (hmem' i' j').mpr ((MaximalPiece.right_iff hs).mp h),
          by rw [hshift]⟩
  · rw [List.map_append, List.map_map]
    congr 1
    · refine List.map_congr_left fun q hq => ?_
      obtain ⟨hlt, hle⟩ := hle q hq
      rw [List.drop_append_of_le_length (by omega), List.take_append_of_le_length]
      rw [List.length_drop]
      omega
    · refine List.map_congr_left fun q _ => ?_
      have hdrop : ∀ n, (x ++ s :: y).drop (x.length + 1 + n) = y.drop n := fun n => by
        rw [← List.drop_drop, Nat.add_comm x.length 1, ← List.drop_drop]
        simp
      simp only [Function.comp_apply, hshift, hdrop, Nat.add_sub_add_left]

end Split

section Runs

variable {l : List α}

/-- A word whose letters all satisfy `p` is one piece. -/
theorem pieces_of_all (h : ∀ a ∈ l, p a = true) : Pieces p l ([l].filter (· ≠ [])) := by
  by_cases hnil : l = []
  · subst hnil
    refine ⟨[], List.Pairwise.nil, fun i j => ?_, rfl⟩
    refine iff_of_false List.not_mem_nil fun hp => ?_
    have hlt := hp.lt
    have hle := hp.le
    rw [List.length_nil] at hle
    omega
  · have hlen := List.length_pos_of_ne_nil hnil
    refine ⟨[(0, l.length)], List.pairwise_singleton _ _, fun i j => ?_, by simp [hnil]⟩
    rw [List.mem_singleton]
    have hall : ∀ k a, l[k]? = some a → p a = true := fun k a ha =>
      h a (List.mem_of_getElem? ha)
    constructor
    · rintro heq
      obtain ⟨rfl, rfl⟩ := Prod.mk.inj heq
      refine ⟨hlen, le_refl _, fun k a _ _ ha => hall k a ha, fun k a hk => ?_, fun a ha => ?_⟩
      · omega
      · simp at ha
    · rintro ⟨hlt, hle, -, hbefore, hafter⟩
      -- a letter outside would have to fail `p`
      have hi : i = 0 := by
        by_contra hno
        obtain ⟨k, rfl⟩ : ∃ k, i = k + 1 := ⟨i - 1, by omega⟩
        have hklt : k < l.length := by omega
        have hk : l[k]? = some l[k] := List.getElem?_eq_getElem hklt
        have hfalse := hbefore k _ rfl hk
        rw [hall k _ hk] at hfalse
        contradiction
      have hj : j = l.length := by
        by_contra hno
        have hjlt : j < l.length := by omega
        have hget : l[j]? = some l[j] := List.getElem?_eq_getElem hjlt
        have hfalse := hafter _ hget
        rw [hall j _ hget] at hfalse
        contradiction
      rw [hi, hj]

/-- The runs that are not empty are the maximal pieces. -/
theorem pieces_runs (p : α → Bool) (l : List α) : Pieces p l ((runs p l).filter (· ≠ [])) := by
  induction hn : l.length using Nat.strong_induction_on generalizing l with
  | _ n ih =>
      by_cases hall : ∀ a ∈ l, p a = true
      · rw [runs, List.splitOnP_eq_singleton fun a ha => by simp [hall a ha]]
        exact pieces_of_all hall
      · obtain ⟨s, hsl, hs⟩ : ∃ s ∈ l, p s = false := by simpa using hall
        obtain ⟨x, y, rfl⟩ := List.append_of_mem hsl
        rw [List.length_append, List.length_cons] at hn
        rw [runs, List.splitOnP_append_cons x y (by simp [hs]), List.filter_append]
        exact Pieces.append_cons hs (ih x.length (by omega) x rfl) (ih y.length (by omega) y rfl)

/-- A word determines its pieces. -/
theorem Pieces.unique {ts ts' : List (List α)} (h : Pieces p l ts) (h' : Pieces p l ts') :
    ts = ts' := by
  obtain ⟨b, hsorted, hmem, rfl⟩ := h
  obtain ⟨b', hsorted', hmem', rfl⟩ := h'
  have hnodup : ∀ {b : List (ℕ × ℕ)}, b.Pairwise (fun x y => x.1 < y.1) → b.Nodup := fun hb =>
    hb.imp fun {x y} hlt heq => by
      rw [heq] at hlt
      exact lt_irrefl _ hlt
  have hperm : b.Perm b' := (List.perm_ext_iff_of_nodup (hnodup hsorted) (hnodup hsorted')).mpr
    fun q => by rw [hmem q.1 q.2, hmem' q.1 q.2]
  rw [hperm.eq_of_pairwise (fun x y _ _ hxy hyx => absurd hxy (lt_asymm hyx)) hsorted hsorted']

/-- The long runs are long pieces. -/
theorem Pieces.strings_eq {ts : List (List α)} {k : ℕ} (h : Pieces p l ts) (hk : 1 ≤ k) :
    strings p k l = ts.countP fun r => k ≤ r.length := by
  obtain rfl := h.unique (pieces_runs p l)
  rw [strings, List.countP_filter]
  refine List.countP_congr fun r _ => ?_
  cases r with
  | nil => simp; omega
  | cons a r => simp

theorem Pieces.length_le_longest {ts : List (List α)} {r : List α} (h : Pieces p l ts)
    (hr : r ∈ ts) : r.length ≤ longest p l := by
  obtain rfl := h.unique (pieces_runs p l)
  exact le_foldr_max (List.mem_map_of_mem (List.mem_filter.mp hr).1)

/-- A word with a letter of `p` has a piece that is as long as the longest run. -/
theorem Pieces.exists_longest {ts : List (List α)} (h : Pieces p l ts)
    (hex : ∃ a ∈ l, p a = true) : ∃ r ∈ ts, r.length = longest p l := by
  obtain rfl := h.unique (pieces_runs p l)
  have hpos := longest_pos hex
  obtain ⟨r, hr, hlen⟩ := List.mem_map.mp (foldr_max_mem hpos)
  refine ⟨r, List.mem_filter.mpr ⟨hr, ?_⟩, hlen⟩
  refine decide_eq_true fun hnil => ?_
  rw [hnil, List.length_nil] at hlen
  exact absurd hlen hpos.ne

end Runs

end Run

end OperatingSystems
