import Mathlib.Data.Int.Basic
import OperatingSystems.Patch.Store

/-!
# Patches of consecutive addresses

A block writes the values of a list to consecutive addresses. Afterwards the store
holds the list there, and what it held before everywhere else.
-/

namespace OperatingSystems

namespace Patch

variable {β : Type*}

/-- The values of a list, from the address `i` on. -/
def block (i : ℤ) : List β → List (ℤ × β)
  | [] => []
  | b :: bs => (i, b) :: block (i + 1) bs

theorem block_cons (i : ℤ) (b : β) (bs : List β) :
    block i (b :: bs) = (i, b) :: block (i + 1) bs := rfl

theorem block_append (i : ℤ) (bs bs' : List β) :
    block i (bs ++ bs') = block i bs ++ block (i + bs.length) bs' := by
  induction bs generalizing i with
  | nil => rw [List.nil_append, List.length_nil, Int.natCast_zero, Int.add_zero]; rfl
  | cons b bs ih =>
      have hindex : i + 1 + bs.length = i + (bs.length + 1 : ℕ) := by omega
      rw [List.cons_append, block_cons, ih, hindex]
      rfl

/-- A loop that writes one entry after the other. -/
theorem block_map_range (i : ℤ) (f : ℕ → β) (n : ℕ) :
    block i ((List.range n).map f) = (List.range n).map fun r : ℕ => (i + (r : ℤ), f r) := by
  induction n with
  | zero => rfl
  | succ n ih =>
      rw [List.range_succ, List.map_append, List.map_append, block_append, ih, List.length_map,
        List.length_range]
      rfl

variable {i a : ℤ} {b : β} {bs : List β}

theorem mem_keys_block : a ∈ keys (block i bs) ↔ i ≤ a ∧ a < i + bs.length := by
  induction bs generalizing i with
  | nil =>
      refine iff_of_false List.not_mem_nil fun h => ?_
      rw [List.length_nil] at h
      omega
  | cons b bs ih =>
      change a ∈ i :: keys (block (i + 1) bs) ↔ _
      rw [List.mem_cons, ih, List.length_cons]
      omega

/-- The entries of the list are in the store. -/
theorem apply_block {j : ℕ} (h : bs[j]? = some b) (f : ℤ → β) :
    apply (block i bs) f (i + j) = b := by
  induction bs generalizing i j f with
  | nil => simp at h
  | cons c bs ih =>
      rw [block_cons, apply_cons]
      cases j with
      | zero =>
          have hout : i + (0 : ℕ) ∉ keys (block (i + 1) bs) := fun hmem => by
            have hle := (mem_keys_block.mp hmem).1
            omega
          rw [apply_of_notMem hout, Int.natCast_zero, Int.add_zero, Function.update_self]
          simpa using h
      | succ j =>
          have hindex : i + (j + 1 : ℕ) = i + 1 + j := by omega
          rw [hindex]
          exact ih (by simpa using h) _

/-- Every other address keeps its value. -/
theorem apply_block_of_outside (h : a < i ∨ i + bs.length ≤ a) (f : ℤ → β) :
    apply (block i bs) f a = f a :=
  apply_of_notMem (fun hmem => by
    have hmem := mem_keys_block.mp hmem
    omega) f

end Patch

end OperatingSystems
