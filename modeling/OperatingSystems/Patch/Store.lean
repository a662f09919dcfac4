import Mathlib.Data.List.Nodup
import Mathlib.Logic.Function.Basic

/-!
# Patches of a store

A store gives every address a value. A patch is a list of entries, each an
address and the value written to it. What the store held at these addresses
before undoes the patch, as long as nobody else wrote them in between.

A family of patches over pairwise disjoint addresses can therefore be applied
and undone in any order: `Patched` says what the store then holds and what was
saved, and it survives the application and the removal of any member.
-/

namespace OperatingSystems

namespace Patch

variable {α β κ : Type*}

/-- The addresses that a patch writes. -/
def keys (p : List (α × β)) : List α :=
  p.map Prod.fst

/-- The patch that writes back what the store holds at the addresses of `p`. -/
def undo (p : List (α × β)) (f : α → β) : List (α × β) :=
  p.map fun e => (e.1, f e.1)

@[simp] theorem keys_undo (p : List (α × β)) (f : α → β) : keys (undo p f) = keys p := by
  simp only [keys, undo, List.map_map]
  rfl

section Apply

variable [DecidableEq α]

/-- The store after the entries of a patch have been written, in order. -/
def apply (p : List (α × β)) (f : α → β) : α → β :=
  p.foldl (fun g e => Function.update g e.1 e.2) f

@[simp] theorem apply_nil (f : α → β) : apply [] f = f := rfl

theorem apply_cons (e : α × β) (p : List (α × β)) (f : α → β) :
    apply (e :: p) f = apply p (Function.update f e.1 e.2) := rfl

/-- A patch leaves every other address alone. -/
theorem apply_of_notMem {p : List (α × β)} {a : α} (h : a ∉ keys p) (f : α → β) :
    apply p f a = f a := by
  induction p generalizing f with
  | nil => rfl
  | cons e p ih =>
      have hne : a ≠ e.1 := List.ne_of_not_mem_cons h
      rw [apply_cons, ih (List.not_mem_of_not_mem_cons h), Function.update_of_ne hne]

/-- Where no address occurs twice, every entry of the patch is in the store. -/
theorem apply_of_mem {p : List (α × β)} (hnodup : (keys p).Nodup) {e : α × β} (he : e ∈ p)
    (f : α → β) : apply p f e.1 = e.2 := by
  induction p generalizing f with
  | nil => exact absurd he List.not_mem_nil
  | cons d p ih =>
      obtain ⟨hd, hp⟩ := List.nodup_cons.mp hnodup
      rw [apply_cons]
      rcases List.mem_cons.mp he with rfl | he
      · rw [apply_of_notMem hd, Function.update_self]
      · exact ih hp he _

/-- Writing back what `f` held gives the addresses of the patch their values in
`f`, whatever the store holds elsewhere. -/
theorem apply_undo (p : List (α × β)) (f g : α → β) (a : α) :
    apply (undo p f) g a = if a ∈ keys p then f a else g a := by
  induction p generalizing g with
  | nil => rfl
  | cons e p ih =>
      change apply (undo p f) (Function.update g e.1 (f e.1)) a = _
      rw [ih]
      change _ = if a ∈ e.1 :: keys p then f a else g a
      by_cases hp : a ∈ keys p
      · rw [if_pos hp, if_pos (List.mem_cons_of_mem _ hp)]
      · rw [if_neg hp]
        by_cases he : a = e.1
        · rw [if_pos (he ▸ List.mem_cons_self), he, Function.update_self]
        · rw [if_neg (List.not_mem_cons_of_ne_of_not_mem he hp), Function.update_of_ne he]

/-- Patches of different addresses can be applied in either order. -/
theorem apply_comm {p q : List (α × β)} (hdisjoint : List.Disjoint (keys p) (keys q))
    (hp : (keys p).Nodup) (hq : (keys q).Nodup) (f : α → β) :
    apply p (apply q f) = apply q (apply p f) := by
  funext a
  by_cases hap : a ∈ keys p
  · obtain ⟨e, he, rfl⟩ := List.mem_map.mp hap
    rw [apply_of_mem hp he, apply_of_notMem (hdisjoint hap), apply_of_mem hp he]
  · rw [apply_of_notMem hap]
    by_cases haq : a ∈ keys q
    · obtain ⟨e, he, rfl⟩ := List.mem_map.mp haq
      rw [apply_of_mem hq he, apply_of_mem hq he]
    · rw [apply_of_notMem haq, apply_of_notMem haq, apply_of_notMem hap]

end Apply

/-- Patches over pairwise disjoint addresses, one for each member of `κ`. -/
structure Family (κ α β : Type*) where
  patch : κ → List (α × β)
  nodup : ∀ k, (keys (patch k)).Nodup
  disjoint : ∀ k l, k ≠ l → List.Disjoint (keys (patch k)) (keys (patch l))

theorem Family.apply_comm [DecidableEq α] (F : Family κ α β) (k l : κ) (f : α → β) :
    apply (F.patch k) (apply (F.patch l) f) = apply (F.patch l) (apply (F.patch k) f) := by
  by_cases h : k = l
  · rw [h]
  · exact Patch.apply_comm (F.disjoint k l h) (F.nodup k) (F.nodup l) f

/-- The members of a family can be applied in any order. -/
theorem Family.foldl_perm [DecidableEq α] (F : Family κ α β) {l l' : List κ} (h : l.Perm l')
    (f : α → β) :
    l.foldl (fun g k => apply (F.patch k) g) f = l'.foldl (fun g k => apply (F.patch k) g) f :=
  h.foldl_eq' (fun k _ l _ g => F.apply_comm l k g) f

/-- The store `f` is `base` under the patches of the members with something
saved, and what they saved is what `base` holds. -/
structure Patched (F : Family κ α β) (base : α → β) (saved : κ → Option (List (α × β)))
    (f : α → β) : Prop where
  untouched : ∀ a, (∀ k, saved k ≠ none → a ∉ keys (F.patch k)) → f a = base a
  owned : ∀ k, saved k ≠ none → ∀ e ∈ F.patch k, f e.1 = e.2
  original : ∀ k p, saved k = some p → p = undo (F.patch k) base

namespace Patched

variable {F : Family κ α β} {base f : α → β} {saved : κ → Option (List (α × β))}

theorem start (F : Family κ α β) (base : α → β) : Patched F base (fun _ => none) base where
  untouched := fun _ _ => rfl
  owned := fun _ h => absurd rfl h
  original := fun _ _ h => absurd h (Option.some_ne_none _).symm

/-- The addresses of a member without anything saved still hold their first
values, so saving them saves the originals. -/
theorem undo_eq (h : Patched F base saved f) {k : κ} (hk : saved k = none) :
    undo (F.patch k) f = undo (F.patch k) base := by
  refine List.map_congr_left fun e he => ?_
  have hfree : ∀ l, saved l ≠ none → e.1 ∉ keys (F.patch l) := by
    intro l hl
    have hne : k ≠ l := fun heq => hl (heq ▸ hk)
    exact F.disjoint k l hne (List.mem_map_of_mem he)
  rw [h.untouched e.1 hfree]

/-- Once nothing is saved any more, the store is the first one. -/
theorem eq_base (h : Patched F base saved f) (hnone : ∀ k, saved k = none) : f = base :=
  funext fun a => h.untouched a fun k hk => absurd (hnone k) hk

section Steps

variable [DecidableEq α] [DecidableEq κ]

theorem install (h : Patched F base saved f) {k : κ} (hk : saved k = none) :
    Patched F base (Function.update saved k (some (undo (F.patch k) f)))
      (apply (F.patch k) f) where
  untouched := by
    intro a ha
    have hak : a ∉ keys (F.patch k) := by
      refine ha k ?_
      rw [Function.update_self]
      exact Option.some_ne_none _
    rw [apply_of_notMem hak]
    refine h.untouched a fun l hl => ?_
    have hne : l ≠ k := fun heq => hl (heq ▸ hk)
    exact ha l (by rwa [Function.update_of_ne hne])
  owned := by
    intro l hl e he
    by_cases hlk : l = k
    · subst hlk
      exact apply_of_mem (F.nodup l) he f
    · rw [Function.update_of_ne hlk] at hl
      rw [apply_of_notMem (F.disjoint l k hlk (List.mem_map_of_mem he))]
      exact h.owned l hl e he
  original := by
    intro l p hp
    by_cases hlk : l = k
    · subst hlk
      rw [Function.update_self] at hp
      exact (Option.some.inj hp).symm.trans (h.undo_eq hk)
    · rw [Function.update_of_ne hlk] at hp
      exact h.original l p hp

theorem remove (h : Patched F base saved f) {k : κ} {p : List (α × β)} (hk : saved k = some p) :
    Patched F base (Function.update saved k none) (apply p f) where
  untouched := by
    intro a ha
    rw [h.original k p hk, apply_undo]
    by_cases hak : a ∈ keys (F.patch k)
    · rw [if_pos hak]
    · rw [if_neg hak]
      refine h.untouched a fun l hl => ?_
      by_cases hlk : l = k
      · exact hlk ▸ hak
      · exact ha l (by rwa [Function.update_of_ne hlk])
  owned := by
    intro l hl e he
    have hlk : l ≠ k := fun heq => hl (by rw [heq, Function.update_self])
    rw [Function.update_of_ne hlk] at hl
    have hnot := F.disjoint l k hlk (List.mem_map_of_mem he)
    rw [h.original k p hk, apply_undo, if_neg hnot]
    exact h.owned l hl e he
  original := by
    intro l q hq
    by_cases hlk : l = k
    · subst hlk
      rw [Function.update_self] at hq
      exact absurd hq (Option.some_ne_none _).symm
    · rw [Function.update_of_ne hlk] at hq
      exact h.original l q hq

end Steps

end Patched

end Patch

end OperatingSystems
