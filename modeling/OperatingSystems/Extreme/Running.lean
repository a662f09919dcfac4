import Mathlib.Order.Lattice

/-!
# Running extremes

A pass over a list keeps the least key seen so far, of the elements that qualify,
together with a tag of the element it came from. Only a strictly smaller key
replaces the one that is kept, so the first of the least elements wins. The
greatest key is the same pass over the dual order.
-/

namespace OperatingSystems

namespace Extreme

variable {α κ τ : Type*} [LinearOrder κ]

section First

variable {p : α → Prop} {key : α → κ}

theorem key_le_of_first {l m : List α} {x : α} (hl : ∀ y ∈ l, p y → key x < key y)
    (hm : ∀ y ∈ m, p y → key x ≤ key y) {y : α} (hy : y ∈ l ++ x :: m) (hp : p y) :
    key x ≤ key y := by
  rcases List.mem_append.mp hy with hy | hy
  · exact (hl y hy hp).le
  · rcases List.mem_cons.mp hy with rfl | hy
    · exact le_rfl
    · exact hm y hy hp

/-- Where some element qualifies, there is a first one among the least. -/
theorem exists_first (p : α → Prop) (key : α → κ) {l : List α} (h : ∃ x ∈ l, p x) :
    ∃ l₁ x l₂, l = l₁ ++ x :: l₂ ∧ p x ∧ (∀ y ∈ l₁, p y → key x < key y) ∧
      ∀ y ∈ l₂, p y → key x ≤ key y := by
  induction l with
  | nil =>
      obtain ⟨x, hx, -⟩ := h
      exact absurd hx List.not_mem_nil
  | cons a l ih =>
      by_cases hrest : ∃ x ∈ l, p x
      · obtain ⟨l₁, x, l₂, rfl, hp, h₁, h₂⟩ := ih hrest
        by_cases ha : p a ∧ key a ≤ key x
        · -- the head is the first of the least
          refine ⟨[], a, l₁ ++ x :: l₂, rfl, ha.1, fun y hy => absurd hy List.not_mem_nil, ?_⟩
          exact fun y hy hpy => ha.2.trans (key_le_of_first h₁ h₂ hy hpy)
        · refine ⟨a :: l₁, x, l₂, rfl, hp, ?_, h₂⟩
          intro y hy hpy
          rcases List.mem_cons.mp hy with rfl | hy
          · exact lt_of_not_ge fun hle => ha ⟨hpy, hle⟩
          · exact h₁ y hy hpy
      · obtain ⟨x, hx, hpx⟩ := h
        rcases List.mem_cons.mp hx with rfl | hx
        · exact ⟨[], x, l, rfl, hpx, fun y hy => absurd hy List.not_mem_nil,
            fun y hy hpy => absurd ⟨y, hy, hpy⟩ hrest⟩
        · exact absurd ⟨x, hx, hpx⟩ hrest

theorem exists_least (p : α → Prop) (key : α → κ) {l : List α} (h : ∃ x ∈ l, p x) :
    ∃ x ∈ l, p x ∧ ∀ y ∈ l, p y → key x ≤ key y := by
  obtain ⟨l₁, x, l₂, rfl, hp, h₁, h₂⟩ := exists_first p key h
  exact ⟨x, List.mem_append_right l₁ List.mem_cons_self, hp,
    fun y hy hpy => key_le_of_first h₁ h₂ hy hpy⟩

end First

section Pass

variable (p : α → Prop) [DecidablePred p] (key : α → κ) (tag : α → τ)

/-- What is kept after one more element. -/
def step (b : κ × τ) (x : α) : κ × τ :=
  if p x ∧ key x < b.1 then (key x, tag x) else b

/-- What is kept after a pass over a list. -/
def pass (b : κ × τ) (l : List α) : κ × τ :=
  l.foldl (step p key tag) b

variable {p key tag}

@[simp] theorem pass_nil (b : κ × τ) : pass p key tag b [] = b := rfl

theorem pass_cons (b : κ × τ) (x : α) (l : List α) :
    pass p key tag b (x :: l) = pass p key tag (step p key tag b x) l := rfl

theorem pass_append (b : κ × τ) (l m : List α) :
    pass p key tag b (l ++ m) = pass p key tag (pass p key tag b l) m :=
  List.foldl_append

/-- A pass changes nothing where no element that qualifies has a smaller key. -/
theorem pass_eq_self {b : κ × τ} {l : List α} (h : ∀ x ∈ l, p x → b.1 ≤ key x) :
    pass p key tag b l = b := by
  induction l with
  | nil => rfl
  | cons x l ih =>
      have hstep : step p key tag b x = b :=
        if_neg fun hx => not_lt_of_ge (h x List.mem_cons_self hx.1) hx.2
      rw [pass_cons, hstep]
      exact ih fun y hy => h y (List.mem_cons_of_mem x hy)

/-- What is kept never grows. -/
theorem pass_le (b : κ × τ) (l : List α) : (pass p key tag b l).1 ≤ b.1 := by
  induction l generalizing b with
  | nil => exact le_rfl
  | cons x l ih =>
      rw [pass_cons]
      refine (ih _).trans ?_
      unfold step
      split
      · rename_i h
        exact h.2.le
      · exact le_rfl

/-- After a pass no element that qualifies has a smaller key. -/
theorem pass_le_key (b : κ × τ) {l : List α} {x : α} (hx : x ∈ l) (hp : p x) :
    (pass p key tag b l).1 ≤ key x := by
  induction l generalizing b with
  | nil => exact absurd hx List.not_mem_nil
  | cons y l ih =>
      rcases List.mem_cons.mp hx with rfl | hx
      · refine (pass_le _ l).trans ?_
        unfold step
        split
        · exact le_rfl
        · rename_i h
          exact le_of_not_gt fun hlt => h ⟨hp, hlt⟩
      · exact ih _ hx

/-- A second pass over the same elements changes nothing, in whatever order. -/
theorem pass_append_of_subset (b : κ × τ) {l m : List α} (h : m ⊆ l) :
    pass p key tag b (l ++ m) = pass p key tag b l := by
  rw [pass_append]
  exact pass_eq_self fun x hx hp => pass_le_key b (h hx) hp

/-- The first of the least elements is kept, if its key is below the first one. -/
theorem pass_of_first {b : κ × τ} {l m : List α} {x : α} (hp : p x) (hx : key x < b.1)
    (hl : ∀ y ∈ l, p y → key x < key y) (hm : ∀ y ∈ m, p y → key x ≤ key y) :
    pass p key tag b (l ++ x :: m) = (key x, tag x) := by
  have hlt : key x < (pass p key tag b l).1 := by
    clear hm
    induction l generalizing b with
    | nil => exact hx
    | cons y l ih =>
        refine ih ?_ fun z hz => hl z (List.mem_cons_of_mem y hz)
        unfold step
        split
        · rename_i h
          exact hl y List.mem_cons_self h.1
        · exact hx
  have hstep : step p key tag (pass p key tag b l) x = (key x, tag x) := if_pos ⟨hp, hlt⟩
  rw [pass_append, pass_cons, hstep]
  exact pass_eq_self hm

/-- With different keys the least element is kept. -/
theorem pass_of_least {b : κ × τ} {l : List α} {x : α} (hx : x ∈ l) (hp : p x)
    (hlt : key x < b.1) (hinj : ∀ y ∈ l, key y = key x → y = x)
    (hle : ∀ y ∈ l, p y → key x ≤ key y) : pass p key tag b l = (key x, tag x) := by
  obtain ⟨l₁, z, l₂, rfl, hpz, h₁, h₂⟩ := exists_first p key ⟨x, hx, hp⟩
  have hz : z ∈ l₁ ++ z :: l₂ := List.mem_append_right l₁ List.mem_cons_self
  obtain rfl : z = x :=
    hinj z hz (le_antisymm (key_le_of_first h₁ h₂ hx hp) (hle z hz hpz))
  exact pass_of_first hp hlt h₁ h₂

/-- An element that is not the first of the least can be left out. -/
theorem pass_insert {b : κ × τ} {l m : List α} {x : α}
    (h : ¬ (p x ∧ key x < b.1 ∧ (∀ y ∈ l, p y → key x < key y) ∧
      ∀ y ∈ m, p y → key x ≤ key y)) :
    pass p key tag b (l ++ x :: m) = pass p key tag b (l ++ m) := by
  by_cases hstep : p x ∧ key x < (pass p key tag b l).1
  · -- what follows has a smaller key, and that one is kept in both passes
    obtain ⟨hp, hlt⟩ := hstep
    have hsmaller : ∃ y ∈ m, p y ∧ key y < key x := by
      by_contra hnone
      refine h ⟨hp, hlt.trans_le (pass_le b l), fun y hy hpy => ?_, fun y hy hpy => ?_⟩
      · exact hlt.trans_le (pass_le_key b hy hpy)
      · exact le_of_not_gt fun hyx => hnone ⟨y, hy, hpy, hyx⟩
    obtain ⟨y, hy, hpy, hyx⟩ := hsmaller
    obtain ⟨m₁, z, m₂, rfl, hpz, h₁, h₂⟩ := exists_first p key ⟨y, hy, hpy⟩
    have hzx : key z < key x := (key_le_of_first h₁ h₂ hy hpy).trans_lt hyx
    have hkept : step p key tag (pass p key tag b l) x = (key x, tag x) := if_pos ⟨hp, hlt⟩
    rw [pass_append, pass_cons, hkept, pass_of_first hpz hzx h₁ h₂, pass_append,
      pass_of_first hpz (hzx.trans hlt) h₁ h₂]
  · rw [pass_append, pass_cons, step, if_neg hstep, pass_append]

end Pass

end Extreme

end OperatingSystems
