import Mathlib.Algebra.Order.BigOperators.Group.Finset
import Mathlib.Algebra.Order.Ring.Int
import Mathlib.Tactic.Ring
import OperatingSystems.Addem.Total
import OperatingSystems.Checked.Sum

/-!
# The arithmetic of addem

The ranges, the sums of the workers and the total with the operations of a 32-bit
`int`, where a result that does not fit is undefined. The bounds of the ranges
always fit. The sum of a worker and the total are sums of numbers from 1 to
`maxValue`; the first `maxValue` for which they do not fit is 65536, and
`main` does not check for it.
-/

namespace OperatingSystems

namespace Addem

open OperatingSystems.Thread

def intMin : ℤ := -2147483648

def intMax : ℤ := 2147483647

/-- A value of type `int`. -/
def IsInt (n : ℤ) : Prop := intMin ≤ n ∧ n ≤ intMax

/-- The result of an operation on `int`, none on overflow. -/
def int (n : ℤ) : Option ℤ := Checked.fit intMin intMax n

/-- What the loop of a worker has come to. -/
inductive Loop where
  | running
  | overflow
  | done (sum : ℤ)
  deriving DecidableEq, Repr

/-- The loop of `sumthread` after a number of turns: first `sum += value`, then
`++value`. -/
def sumLoop (last : ℤ) : ℕ → ℤ → ℤ → Loop
  | 0, _, _ => .running
  | turns + 1, value, sum =>
      if value ≤ last then
        match int (sum + value), int (value + 1) with
        | some sum, some value => sumLoop last turns value sum
        | _, _ => .overflow
      else .done sum

/-- The loop ends without overflow, and `sum` is what it computes. -/
def Sums (message : Msg) (sum : ℤ) : Prop :=
  ∃ turns, sumLoop message.value2 turns message.value1 0 = .done sum

section Code

variable (numberOfThreads : ThreadCount) (maxValue : ℤ)

/-- `request`, with the operations on `int`. -/
def intRequest (i : ℕ) : Option Msg :=
  (int (maxValue.tdiv numberOfThreads.val)).bind fun range =>
    if i < numberOfThreads.val then
      (int ((i - 1) * range)).bind fun before =>
        (int (before + 1)).bind fun value1 =>
          (int ((i - 1) + 1)).bind fun next =>
            (int (next * range)).bind fun value2 => some (rangeMessage value1 value2)
    else
      (int (numberOfThreads.val - 1)).bind fun others =>
        (int (others * range)).bind fun before =>
          (int (before + 1)).bind fun value1 => some (rangeMessage value1 maxValue)

/-- Worker `i` gets its message and sends back `sum`. -/
def Sends (i : ℕ) (sum : ℤ) : Prop :=
  ∃ message, intRequest numberOfThreads maxValue i = some message ∧ Sums message sum

/-- `fullSum`, from the sums in the order in which they come. -/
def fullSum (sums : List ℤ) : Option ℤ := Checked.sum intMin intMax 0 sums

/-- Nothing overflows, the loops end, and in whatever order the sums come the total
is right. -/
structure Safe : Prop where
  worker : ∀ i, 1 ≤ i → i ≤ numberOfThreads.val → ∃ sum, Sends numberOfThreads maxValue i sum
  total : ∀ order sums, order.Perm (List.range' 1 numberOfThreads.val) →
    List.Forall₂ (Sends numberOfThreads maxValue) order sums →
      fullSum sums = some (∑ i ∈ Finset.Icc 1 maxValue, i) ∧
        (maxValue ≤ 0 → fullSum sums = some 0)

end Code

section Sums

variable {value sum last : ℤ}

theorem isInt_iff {n : ℤ} : IsInt n ↔ -2147483648 ≤ n ∧ n ≤ 2147483647 := Iff.rfl

theorem isInt_zero : IsInt 0 := isInt_iff.mpr (by omega)

theorem int_of_isInt {n : ℤ} (h : IsInt n) : int n = some n := Checked.fit_of_mem h.1 h.2

theorem total_eq_add (h : value ≤ last) : total value last = value + total (value + 1) last := by
  have hset : insert value (Finset.Icc (value + 1) last) = Finset.Icc value last := by
    ext i
    rw [Finset.mem_insert, Finset.mem_Icc, Finset.mem_Icc]
    omega
  have hnot : value ∉ Finset.Icc (value + 1) last := by
    rw [Finset.mem_Icc]
    omega
  rw [total, total, ← hset, Finset.sum_insert hnot]

theorem total_nonneg (h : 0 ≤ value) (last : ℤ) : 0 ≤ total value last := by
  apply Finset.sum_nonneg
  intro i hi
  exact h.trans (Finset.mem_Icc.mp hi).1

theorem total_le_total {a b : ℤ} (ha : 1 ≤ a) (hab : b ≤ last) : total a b ≤ total 1 last := by
  apply Finset.sum_le_sum_of_subset_of_nonneg (Finset.Icc_subset_Icc ha hab)
  intro i hi _
  exact le_trans (by omega) (Finset.mem_Icc.mp hi).1

theorem two_mul_total (h : 0 ≤ last) : 2 * total 1 last = last * (last + 1) := by
  induction last, h using Int.leInduction with
  | base => rw [total_of_lt (by omega)]; rfl
  | succ n hn ih =>
      have hsplit := total_add_total hn (Int.le_add_one le_rfl)
      have hone : total (n + 1) (n + 1) = n + 1 := by
        rw [total, Finset.Icc_self, Finset.sum_singleton]
      rw [← hsplit, hone, mul_add, ih]
      ring

/-- What a loop computes is the sum of its range, and it fits. -/
theorem eq_of_sumLoop {turns : ℕ} {s : ℤ} (hsum : IsInt sum)
    (h : sumLoop last turns value sum = .done s) : s = sum + total value last ∧ IsInt s := by
  induction turns generalizing value sum with
  | zero => cases h
  | succ turns ih =>
      rw [sumLoop] at h
      split at h
      next hle =>
        split at h
        next sum' value' hs hv =>
          obtain ⟨rfl, hint⟩ := Checked.fit_eq_some.mp hs
          obtain ⟨rfl, -⟩ := Checked.fit_eq_some.mp hv
          obtain ⟨hs, hsint⟩ := ih hint h
          exact ⟨by rw [hs, total_eq_add hle, add_assoc], hsint⟩
        next => cases h
      next hlt =>
        cases h
        exact ⟨by rw [total_of_lt (by omega), add_zero], hsum⟩

/-- A loop over positive numbers ends, if their sum fits. -/
theorem sumLoop_done {turns : ℕ} (hturns : (last + 1 - value).toNat < turns) (hvalue : 1 ≤ value)
    (hsum : 0 ≤ sum) (hlast : last < 2147483647) (h : IsInt (sum + total value last)) :
    sumLoop last turns value sum = .done (sum + total value last) := by
  induction turns generalizing value sum with
  | zero => omega
  | succ turns ih =>
      rw [sumLoop]
      by_cases hle : value ≤ last
      · rw [total_eq_add hle, ← add_assoc] at h ⊢
        have hrest := total_nonneg (Int.le_add_one (le_trans (by omega) hvalue)) last
        have hbound := (isInt_iff.mp h).2
        have hadd : IsInt (sum + value) := isInt_iff.mpr (by omega)
        have hnext : IsInt (value + 1) := isInt_iff.mpr (by omega)
        simp only [if_pos hle, int_of_isInt hadd, int_of_isInt hnext]
        exact ih (by omega) (by omega) (by omega) h
      · rw [if_neg hle, total_of_lt (by omega), add_zero]

/-- The sum of a worker. -/
theorem eq_of_sums {message : Msg} {s : ℤ} (h : Sums message s) :
    s = total message.value1 message.value2 ∧ IsInt s := by
  obtain ⟨turns, h⟩ := h
  obtain ⟨hs, hint⟩ := eq_of_sumLoop isInt_zero h
  exact ⟨by rw [hs, zero_add], hint⟩

end Sums

section Ranges

variable {numberOfThreads : ThreadCount} {maxValue : ℤ}

/-- The bounds of the ranges fit, as they lie between 0 and `maxValue`. -/
theorem isInt_mul_range (h : IsInt maxValue) {k : ℤ} (hk : 0 ≤ k) (hle : k ≤ numberOfThreads.val) :
    IsInt (k * range numberOfThreads maxValue) := by
  rw [isInt_iff] at h ⊢
  rcases le_total 0 maxValue with hmax | hmax
  · obtain ⟨hrange, htop⟩ := range_nonneg numberOfThreads hmax
    have hmul := mul_le_mul_of_nonneg_right hle hrange
    have hnonneg := mul_nonneg hk hrange
    omega
  · obtain ⟨hrange, hbottom⟩ := range_nonpos numberOfThreads hmax
    have hmul := mul_le_mul_of_nonpos_right hle hrange
    have hnonpos := mul_nonpos_of_nonneg_of_nonpos hk hrange
    omega

/-- One more than the upper bound of a range that is not the last. -/
theorem isInt_mul_range_add_one (h : IsInt maxValue) {k : ℤ} (hk : 0 ≤ k)
    (hlt : k + 1 ≤ numberOfThreads.val) : IsInt (k * range numberOfThreads maxValue + 1) := by
  have hle : k ≤ numberOfThreads.val := by omega
  have hthis := isInt_mul_range h hk hle
  have hnext := isInt_mul_range h (Int.le_add_one hk) hlt
  rw [isInt_iff] at hthis hnext ⊢
  rw [add_mul, one_mul] at hnext
  rcases le_or_gt (range numberOfThreads maxValue) 0 with hrange | hrange
  · have hnonpos := mul_nonpos_of_nonneg_of_nonpos hk hrange
    omega
  · omega

/-- The computations of the ranges do not overflow. -/
theorem intRequest_eq (h : IsInt maxValue) {i : ℕ} (hi : 1 ≤ i) (hin : i ≤ numberOfThreads.val) :
    intRequest numberOfThreads maxValue i = some (request numberOfThreads maxValue i) := by
  have hle := numberOfThreads.le
  have hbefore : 0 ≤ (i : ℤ) - 1 ∧ (i : ℤ) - 1 + 1 ≤ numberOfThreads.val := by omega
  have hothers : 0 ≤ (numberOfThreads.val : ℤ) - 1 ∧
      (numberOfThreads.val : ℤ) - 1 + 1 ≤ numberOfThreads.val := by omega
  have hsmall : ∀ n : ℤ, 0 ≤ n → n ≤ numberOfThreads.val → int n = some n := fun n h0 hn =>
    int_of_isInt (isInt_iff.mpr (by omega))
  have hmul : ∀ k : ℤ, 0 ≤ k → k ≤ numberOfThreads.val →
      int (k * range numberOfThreads maxValue) = some (k * range numberOfThreads maxValue) :=
    fun k h0 hk => int_of_isInt (isInt_mul_range h h0 hk)
  have hone := hmul 1 zero_le_one (by omega)
  rw [one_mul] at hone
  rw [intRequest, ← range, hone, Option.bind_some, request]
  split
  next hlt =>
    rw [hmul _ hbefore.1 (by omega), Option.bind_some,
      int_of_isInt (isInt_mul_range_add_one h hbefore.1 hbefore.2), Option.bind_some,
      sub_add_cancel, hsmall i (by omega) (by omega), Option.bind_some,
      hmul i (by omega) (by omega), Option.bind_some]
  next =>
    rw [hsmall _ hothers.1 (by omega), Option.bind_some, hmul _ hothers.1 (by omega),
      Option.bind_some, int_of_isInt (isInt_mul_range_add_one h hothers.1 hothers.2),
      Option.bind_some]

/-- A message that is computed is the message. -/
theorem eq_of_intRequest {i : ℕ} {message : Msg}
    (h : intRequest numberOfThreads maxValue i = some message) :
    message = request numberOfThreads maxValue i := by
  rw [intRequest] at h
  obtain ⟨r, hr, h⟩ := Option.bind_eq_some_iff.mp h
  obtain ⟨rfl, -⟩ := Checked.fit_eq_some.mp hr
  rw [request]
  split
  next hlt =>
    rw [if_pos hlt] at h
    obtain ⟨before, hbefore, h⟩ := Option.bind_eq_some_iff.mp h
    obtain ⟨value1, hvalue1, h⟩ := Option.bind_eq_some_iff.mp h
    obtain ⟨next, hnext, h⟩ := Option.bind_eq_some_iff.mp h
    obtain ⟨value2, hvalue2, h⟩ := Option.bind_eq_some_iff.mp h
    obtain ⟨rfl, -⟩ := Checked.fit_eq_some.mp hbefore
    obtain ⟨rfl, -⟩ := Checked.fit_eq_some.mp hvalue1
    obtain ⟨rfl, -⟩ := Checked.fit_eq_some.mp hnext
    obtain ⟨rfl, -⟩ := Checked.fit_eq_some.mp hvalue2
    rw [← Option.some.inj h, sub_add_cancel]
    rfl
  next hge =>
    rw [if_neg hge] at h
    obtain ⟨others, hothers, h⟩ := Option.bind_eq_some_iff.mp h
    obtain ⟨before, hbefore, h⟩ := Option.bind_eq_some_iff.mp h
    obtain ⟨value1, hvalue1, h⟩ := Option.bind_eq_some_iff.mp h
    obtain ⟨rfl, -⟩ := Checked.fit_eq_some.mp hothers
    obtain ⟨rfl, -⟩ := Checked.fit_eq_some.mp hbefore
    obtain ⟨rfl, -⟩ := Checked.fit_eq_some.mp hvalue1
    rw [← Option.some.inj h]
    rfl

/-- The ranges lie between 1 and `maxValue`. -/
theorem request_within (numberOfThreads : ThreadCount) (h : 0 ≤ maxValue) {i : ℕ} (hi : 1 ≤ i) :
    1 ≤ (request numberOfThreads maxValue i).value1 ∧
      (request numberOfThreads maxValue i).value2 ≤ maxValue := by
  obtain ⟨hrange, htop⟩ := range_nonneg numberOfThreads h
  have hpos := numberOfThreads.pos
  rw [request]
  split
  next hlt =>
    have hbefore : 0 ≤ ((i : ℤ) - 1) * range numberOfThreads maxValue :=
      mul_nonneg (by omega) hrange
    have hnext : (i : ℤ) * range numberOfThreads maxValue ≤
        numberOfThreads.val * range numberOfThreads maxValue :=
      mul_le_mul_of_nonneg_right (by omega) hrange
    exact ⟨Int.le_add_of_nonneg_left hbefore, hnext.trans htop⟩
  next =>
    have hbefore : 0 ≤ ((numberOfThreads.val : ℤ) - 1) * range numberOfThreads maxValue :=
      mul_nonneg (by omega) hrange
    exact ⟨Int.le_add_of_nonneg_left hbefore, le_rfl⟩

theorem part_nonneg {i : ℕ} (hi : 1 ≤ i) :
    0 ≤ part numberOfThreads maxValue i := by
  rcases le_total 0 maxValue with hmax | hmax
  · exact total_nonneg (le_trans zero_le_one (request_within numberOfThreads hmax hi).1) _
  · rw [part_of_nonpos numberOfThreads hmax i]

end Ranges

section Bound

/-- The sum of the numbers to 65535 is an `int`. -/
theorem total_le_of_le {last : ℤ} (h : last ≤ 65535) : total 1 last ≤ 2147450880 := by
  have hle := total_le_total le_rfl h
  have htwo : 2 * total 1 65535 = 65535 * (65535 + 1) := two_mul_total (by omega)
  omega

/-- The sum of the numbers to 65536 is not. -/
theorem le_of_isInt_total {last : ℤ} (h : IsInt (total 1 last)) : last ≤ 65535 := by
  rw [isInt_iff] at h
  by_contra hlt
  have hle : total 1 65536 ≤ total 1 last := total_le_total le_rfl (by omega)
  have htwo : 2 * total 1 65536 = 65536 * (65536 + 1) := two_mul_total (by omega)
  omega

variable {numberOfThreads : ThreadCount} {maxValue : ℤ}

/-- Up to 65535 the loop of every worker ends with the sum of its range. -/
theorem sums_part (h : maxValue ≤ 65535) {i : ℕ} (hi : 1 ≤ i) :
    Sums (request numberOfThreads maxValue i) (part numberOfThreads maxValue i) := by
  rcases le_total 0 maxValue with hmax | hmax
  · obtain ⟨hfirst, hlast⟩ := request_within numberOfThreads hmax hi
    have hbound := (total_le_total hfirst hlast).trans (total_le_of_le h)
    have hnonneg := total_nonneg (zero_le_one.trans hfirst)
      (request numberOfThreads maxValue i).value2
    have hfit : IsInt (0 + total (request numberOfThreads maxValue i).value1
        (request numberOfThreads maxValue i).value2) := isInt_iff.mpr (by omega)
    have hdone := sumLoop_done (Nat.lt_succ_self _) hfirst le_rfl (by omega) hfit
    rw [zero_add] at hdone
    exact ⟨_, hdone⟩
  · have hlt := value2_lt_value1 numberOfThreads hmax i
    refine ⟨1, ?_⟩
    rw [sumLoop, if_neg (by omega), part_of_nonpos numberOfThreads hmax i]

theorem eq_part_of_sends {i : ℕ} {sum : ℤ} (h : Sends numberOfThreads maxValue i sum) :
    sum = part numberOfThreads maxValue i := by
  obtain ⟨message, hmessage, hsum⟩ := h
  rw [eq_of_intRequest hmessage] at hsum
  exact (eq_of_sums hsum).1

theorem eq_map_part {order : List ℕ} {sums : List ℤ}
    (h : List.Forall₂ (Sends numberOfThreads maxValue) order sums) :
    sums = order.map (part numberOfThreads maxValue) := by
  induction h with
  | nil => rfl
  | cons hsend _ ih => rw [List.map_cons, ih, eq_part_of_sends hsend]

theorem Safe.forall₂ (h : Safe numberOfThreads maxValue) {order : List ℕ}
    (hperm : order.Perm (List.range' 1 numberOfThreads.val)) :
    List.Forall₂ (Sends numberOfThreads maxValue) order
      (order.map (part numberOfThreads maxValue)) := by
  rw [List.forall₂_map_right_iff, List.forall₂_same]
  intro i hi
  rw [hperm.mem_iff, List.mem_range'_1] at hi
  obtain ⟨sum, hsum⟩ := h.worker i hi.1 (by omega)
  rwa [← eq_part_of_sends hsum]

/-- In a run of `addem` the additions of the main thread are those of one order. -/
theorem Safe.of_reachable (h : Safe numberOfThreads maxValue) (blank : Msg)
    {s : State (job numberOfThreads maxValue).program}
    (hs : Transition.Reachable next ((job numberOfThreads maxValue).init blank) s) {printed : ℤ}
    (hprinted : Team.ParentLoc.outcome? (s.loc .parent) = some printed) :
    fullSum ((s.returned 0).map Msg.value1) = some printed := by
  obtain ⟨order, hperm, hreturned, hsum⟩ :=
    Team.outcome_shared (job_replies numberOfThreads maxValue) rfl hs hprinted
  have hvalues : (s.returned 0).map Msg.value1 = order.map (part numberOfThreads maxValue) := by
    rw [hreturned, List.map_map]
    exact List.map_congr_left fun i _ => sumthread_value1 _
  have hprint : printed = Addem.total 1 maxValue := hsum.trans (foldl_replies hperm)
  rw [hvalues, hprint]
  exact (h.total order _ hperm (h.forall₂ hperm)).1

theorem Safe.le (h : Safe numberOfThreads maxValue) : maxValue ≤ 65535 := by
  have hsum := (h.total _ _ (List.Perm.refl _) (h.forall₂ (List.Perm.refl _))).1
  exact le_of_isInt_total (Checked.eq_of_sum isInt_zero.1 isInt_zero.2 hsum).2

theorem fullSum_parts (h : maxValue ≤ 65535) {order : List ℕ}
    (hperm : order.Perm (List.range' 1 numberOfThreads.val)) :
    fullSum (order.map (part numberOfThreads maxValue)) = some (total 1 maxValue) := by
  have hsum : (order.map (part numberOfThreads maxValue)).sum = total 1 maxValue := by
    rw [(hperm.map _).sum_eq, sum_parts]
  have hnonneg : ∀ sum ∈ order.map (part numberOfThreads maxValue), 0 ≤ sum := by
    intro sum hsum
    obtain ⟨i, hi, rfl⟩ := List.mem_map.mp hsum
    rw [hperm.mem_iff, List.mem_range'_1] at hi
    exact part_nonneg hi.1
  have hfit : total 1 maxValue ≤ intMax := (total_le_of_le h).trans (by decide)
  rw [← hsum, ← zero_add (List.sum _)] at hfit ⊢
  exact Checked.sum_of_nonneg isInt_zero.1 hnonneg hfit

end Bound

/-- The arithmetic of `addem` is safe exactly up to 65535, with any number of
threads. -/
theorem safe_iff (numberOfThreads : ThreadCount) {maxValue : ℤ} (hmax : IsInt maxValue) :
    Safe numberOfThreads maxValue ↔ maxValue ≤ 65535 := by
  refine ⟨Safe.le, fun h => ⟨fun i hi hin => ?_, fun order sums hperm hsums => ?_⟩⟩
  · exact ⟨_, _, intRequest_eq hmax hi hin, sums_part h hi⟩
  · rw [eq_map_part hsums, fullSum_parts h hperm]
    refine ⟨rfl, fun hle => ?_⟩
    rw [total_of_lt (by omega)]

theorem safe_twoThreads : IsInt 65535 ∧ Safe twoThreads 65535 :=
  have hmax : IsInt 65535 := ⟨by decide, by decide⟩
  ⟨hmax, (safe_iff twoThreads hmax).mpr le_rfl⟩

/-- With 65536 the sums of the two workers fit, and their total does not. -/
theorem not_safe_twoThreads : IsInt 65536 ∧ ¬ Safe twoThreads 65536 :=
  ⟨⟨by decide, by decide⟩, fun h => absurd h.le (by decide)⟩

end Addem

end OperatingSystems
