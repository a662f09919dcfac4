import Mathlib.Algebra.BigOperators.Intervals
import Mathlib.Data.Int.ConditionallyCompleteOrder
import Mathlib.Data.Int.Interval
import Mathlib.Data.Int.Range
import OperatingSystems.Team.Results

/-!
# addem

`addem` splits the numbers from 1 to `maxValue` into ranges, one for each worker,
and adds up the sums of the workers. The main thread and the workers are a team
whose replies all come back through mailbox 0, in any order. The division of
`maxValue` truncates, so for a negative `maxValue` every range runs backwards and
is empty.

The arithmetic of `int` is that of the integers here.
-/

namespace OperatingSystems

namespace Addem

open OperatingSystems.Thread

inductive MsgType where
  | range
  | alldone
  deriving DecidableEq, Repr

/-- `msg`. -/
structure Msg where
  iFrom : ℤ
  type : MsgType
  value1 : ℤ
  value2 : ℤ
  deriving DecidableEq, Repr

/-- A number of threads that `main` accepts. -/
structure ThreadCount where
  val : ℕ
  pos : 1 ≤ val
  le : val ≤ 10

section Code

variable (numberOfThreads : ThreadCount) (maxValue : ℤ)

/-- `range`, a division that truncates towards zero. -/
def range : ℤ := maxValue.tdiv numberOfThreads.val

/-- A `RANGE` message of the main thread. -/
def rangeMessage (value1 value2 : ℤ) : Msg where
  iFrom := 0
  type := .range
  value1 := value1
  value2 := value2

/-- The message for worker `i`; the last worker takes the rest. -/
def request (i : ℕ) : Msg :=
  if i < numberOfThreads.val then
    rangeMessage (((i : ℤ) - 1) * range numberOfThreads maxValue + 1)
      (i * range numberOfThreads maxValue)
  else
    rangeMessage ((numberOfThreads.val - 1) * range numberOfThreads maxValue + 1) maxValue

/-- `sumthread`, from the message it receives to the one it sends. It does not
look at the type of the message. -/
def sumthread (message : Msg) : Msg :=
  let sum := (Int.range message.value1 (message.value2 + 1)).foldl
    (fun sum value => sum + value) 0
  { message with type := .alldone, value1 := sum }

/-- The loop body that takes a reply. A message of another type is reported, and
added all the same. -/
def addMessage (fullSum : ℤ) (message : Msg) : ℤ := fullSum + message.value1

/-- `main` from the creation of the threads on, and `sumthread`. -/
def job : Team.Job Msg ℤ where
  size := numberOfThreads.val
  one_le_size := numberOfThreads.pos
  request := request numberOfThreads maxValue
  work := fun message => some (sumthread message)
  own := false
  absorb := addMessage
  start := 0

end Code

/-- The sum of the integers from `a` to `b`, none if `b` is less than `a`. -/
noncomputable def total (a b : ℤ) : ℤ := ∑ i ∈ Finset.Icc a b, i

section Sums

variable {a b : ℤ}

theorem total_of_lt (h : b < a) : total a b = 0 := by
  rw [total, Finset.Icc_eq_empty (by omega), Finset.sum_empty]

/-- The sum over a range that is cut in two. -/
theorem total_add_total (h : 0 ≤ a) (hab : a ≤ b) : total 1 a + total (a + 1) b = total 1 b := by
  have hunion : Finset.Icc 1 a ∪ Finset.Icc (a + 1) b = Finset.Icc 1 b := by
    ext i
    simp only [Finset.mem_union, Finset.mem_Icc]
    omega
  have hdisjoint : Disjoint (Finset.Icc 1 a) (Finset.Icc (a + 1) b) := by
    apply Finset.disjoint_left.mpr
    intro i hi hi'
    rw [Finset.mem_Icc] at hi hi'
    omega
  rw [total, total, total, ← hunion, Finset.sum_union hdisjoint]

/-- A worker sends the sum of its range. -/
theorem sumthread_value1 (message : Msg) :
    (sumthread message).value1 = total message.value1 message.value2 := by
  have hnodup : (Int.range message.value1 (message.value2 + 1)).Nodup := by
    refine List.Nodup.map (fun k k' h => ?_) List.nodup_range
    simpa using h
  have hset : (Int.range message.value1 (message.value2 + 1)).toFinset =
      Finset.Icc message.value1 message.value2 := by
    ext i
    rw [List.mem_toFinset, Int.mem_range_iff, Finset.mem_Icc]
    omega
  have hsum := List.sum_toFinset id hnodup
  rw [hset, List.map_id] at hsum
  change (Int.range message.value1 (message.value2 + 1)).foldl (· + ·) 0 = _
  rw [← List.sum_eq_foldl, ← hsum]
  rfl

/-- The main thread adds up the values of the replies. -/
theorem foldl_addMessage (fullSum : ℤ) (messages : List Msg) :
    messages.foldl addMessage fullSum = fullSum + (messages.map Msg.value1).sum := by
  induction messages generalizing fullSum with
  | nil => simp
  | cons message messages ih =>
      rw [List.foldl_cons, ih, addMessage, List.map_cons, List.sum_cons, add_assoc]

end Sums

section Ranges

variable {numberOfThreads : ThreadCount} {maxValue : ℤ}

theorem range_nonneg (numberOfThreads : ThreadCount) (h : 0 ≤ maxValue) :
    0 ≤ range numberOfThreads maxValue ∧
      numberOfThreads.val * range numberOfThreads maxValue ≤ maxValue := by
  have hdiv := Int.mul_tdiv_add_tmod maxValue numberOfThreads.val
  have hmod := Int.tmod_nonneg (numberOfThreads.val : ℤ) h
  refine ⟨Int.tdiv_nonneg h (Int.natCast_nonneg _), ?_⟩
  rw [range]
  omega

theorem range_nonpos (numberOfThreads : ThreadCount) (h : maxValue ≤ 0) :
    range numberOfThreads maxValue ≤ 0 ∧
      maxValue ≤ numberOfThreads.val * range numberOfThreads maxValue := by
  have hneg := range_nonneg numberOfThreads (Int.neg_nonneg_of_nonpos h)
  rw [range, Int.neg_tdiv, ← range, mul_neg] at hneg
  omega

variable (numberOfThreads maxValue)

/-- The sum that worker `i` sends. -/
noncomputable def part (i : ℕ) : ℤ :=
  total (request numberOfThreads maxValue i).value1 (request numberOfThreads maxValue i).value2

variable {numberOfThreads maxValue}

theorem part_of_lt {i : ℕ} (h : i < numberOfThreads.val) :
    part numberOfThreads maxValue i =
      total (((i : ℤ) - 1) * range numberOfThreads maxValue + 1)
        (i * range numberOfThreads maxValue) := by
  rw [part, request, if_pos h]
  rfl

theorem part_last (numberOfThreads : ThreadCount) (maxValue : ℤ) :
    part numberOfThreads maxValue numberOfThreads.val =
      total ((numberOfThreads.val - 1) * range numberOfThreads maxValue + 1) maxValue := by
  rw [part, request, if_neg (lt_irrefl _)]
  rfl

/-- Without positive numbers all ranges are empty. -/
theorem value2_lt_value1 (numberOfThreads : ThreadCount) (h : maxValue ≤ 0) (i : ℕ) :
    (request numberOfThreads maxValue i).value2 < (request numberOfThreads maxValue i).value1 := by
  obtain ⟨hrange, hle⟩ := range_nonpos numberOfThreads h
  rw [request]
  split
  next hlt =>
    simp only [rangeMessage, sub_mul, one_mul]
    omega
  next =>
    simp only [rangeMessage, sub_mul, one_mul]
    omega

theorem part_of_nonpos (numberOfThreads : ThreadCount) (h : maxValue ≤ 0) (i : ℕ) :
    part numberOfThreads maxValue i = 0 :=
  total_of_lt (value2_lt_value1 numberOfThreads h i)

/-- The sums of the first ranges. -/
theorem sum_first_parts (h : 0 ≤ maxValue) {k : ℕ} (hk : k < numberOfThreads.val) :
    ((List.range' 1 k).map (part numberOfThreads maxValue)).sum =
      total 1 (k * range numberOfThreads maxValue) := by
  have hrange := (range_nonneg numberOfThreads h).1
  induction k with
  | zero =>
      rw [total_of_lt (by simp)]
      rfl
  | succ k ih =>
      rw [List.range'_concat, List.map_append, List.sum_append, ih (by omega), List.map_singleton,
        List.sum_singleton, one_mul, add_comm 1 k, part_of_lt hk]
      have hstart : (((k + 1 : ℕ) : ℤ) - 1) * range numberOfThreads maxValue =
          k * range numberOfThreads maxValue := by
        push_cast
        rw [add_sub_cancel_right]
      rw [hstart]
      apply total_add_total
      · exact Int.mul_nonneg (Int.natCast_nonneg k) hrange
      · push_cast
        rw [add_mul, one_mul]
        omega

/-- The sums of all ranges make up the sum from 1 to `maxValue`. -/
theorem sum_parts :
    ((List.range' 1 numberOfThreads.val).map (part numberOfThreads maxValue)).sum =
      total 1 maxValue := by
  by_cases h : 0 ≤ maxValue
  · obtain ⟨hrange, hle⟩ := range_nonneg numberOfThreads h
    obtain ⟨m, hm⟩ : ∃ m, numberOfThreads.val = m + 1 :=
      ⟨_, (Nat.sub_add_cancel numberOfThreads.pos).symm⟩
    have hlast := part_last numberOfThreads maxValue
    rw [hm] at hlast hle
    push_cast at hlast hle
    rw [add_mul, one_mul] at hle
    rw [hm, List.range'_concat, List.map_append, List.sum_append, sum_first_parts h (by omega),
      List.map_singleton, List.sum_singleton, one_mul, add_comm 1 m, hlast, add_sub_cancel_right]
    apply total_add_total
    · exact Int.mul_nonneg (Int.natCast_nonneg m) hrange
    · omega
  · have hzero : ∀ i ∈ List.range' 1 numberOfThreads.val,
        part numberOfThreads maxValue i = (fun _ => 0) i := by
      intro i _
      exact part_of_nonpos numberOfThreads (by omega) i
    rw [List.map_congr_left hzero, total_of_lt (by omega), List.map_const']
    simp

end Ranges

section Runs

variable (numberOfThreads : ThreadCount) (maxValue : ℤ)

/-- The answer of worker `i`. -/
def reply (i : ℕ) : Msg := sumthread (request numberOfThreads maxValue i)

theorem job_replies :
    (job numberOfThreads maxValue).Replies (reply numberOfThreads maxValue) :=
  fun _ _ _ => rfl

variable {numberOfThreads maxValue}

/-- In whatever order the replies come, they add up to the same sum. -/
theorem foldl_replies {order : List ℕ}
    (h : order.Perm (List.range' 1 numberOfThreads.val)) :
    (order.map (reply numberOfThreads maxValue)).foldl addMessage 0 = total 1 maxValue := by
  have hvalue : Msg.value1 ∘ reply numberOfThreads maxValue = part numberOfThreads maxValue :=
    funext fun i => sumthread_value1 _
  rw [foldl_addMessage, zero_add, List.map_map, hvalue, (h.map _).sum_eq, sum_parts]

end Runs

/-- In every run of `addem` the main thread never waits for ever; it receives one
`ALLDONE` message of each worker, and `fullSum` is the sum of the integers from 1
to `maxValue`. -/
theorem total_of_schedule (numberOfThreads : ThreadCount) (maxValue : ℤ) (blank : Msg)
    {s : State (job numberOfThreads maxValue).program}
    (hs : Transition.Reachable next ((job numberOfThreads maxValue).init blank) s) :
    (s.status .parent = .running → ¬ Transition.Stuck next s) ∧
      ∀ fullSum, Team.ParentLoc.outcome? (s.loc .parent) = some fullSum →
        (∃ order : List ℕ, order.Perm (List.range' 1 numberOfThreads.val) ∧
          s.returned 0 =
            order.map fun i => sumthread (request numberOfThreads maxValue i)) ∧
        (∀ m ∈ s.returned 0, m.type = .alldone) ∧
        fullSum = ∑ i ∈ Finset.Icc 1 maxValue, i ∧ (maxValue ≤ 0 → fullSum = 0) := by
  have hreply := job_replies numberOfThreads maxValue
  refine ⟨fun hrun hstuck => ?_, fun fullSum hacc => ?_⟩
  · have hexited := Team.exited_of_stuck hreply hs hstuck
    rw [hrun] at hexited
    contradiction
  · obtain ⟨order, hperm, hreturned, hsum⟩ := Team.outcome_shared hreply rfl hs hacc
    have htotal : fullSum = total 1 maxValue := hsum.trans (foldl_replies hperm)
    refine ⟨⟨order, hperm, hreturned⟩, fun m hm => ?_, htotal, fun hle => ?_⟩
    · rw [hreturned] at hm
      obtain ⟨i, -, rfl⟩ := List.mem_map.mp hm
      rfl
    · rw [htotal, total_of_lt (by omega)]

def twoThreads : ThreadCount := ⟨2, Nat.two_pos, Nat.succ_le_of_lt (by decide)⟩

/-- A run of two workers in which the second replies first. -/
def lateFirstSchedule : List Team.Member :=
  List.replicate 8 .parent ++ List.replicate 8 (.worker 2) ++ List.replicate 4 (.worker 1) ++
    List.replicate 3 .parent ++ List.replicate 3 (.worker 1) ++ List.replicate 3 .parent

theorem total_of_schedule_three :
    ∃ s : State (job twoThreads 3).program,
      Transition.run next lateFirstSchedule
        ((job twoThreads 3).init (rangeMessage 0 0)) = some s ∧
      s.loc .parent = Team.ParentLoc.report (6 : ℤ) ∧
      s.returned 0 = [⟨0, .alldone, 5, 3⟩, ⟨0, .alldone, 1, 1⟩] ∧
      (6 : ℤ) = ∑ i ∈ Finset.Icc 1 3, i := by
  have hrun : (Transition.run next lateFirstSchedule
      ((job twoThreads 3).init (rangeMessage 0 0))).map
        (fun s => (s.loc .parent, s.returned 0)) =
          some (Team.ParentLoc.report 6, [⟨0, .alldone, 5, 3⟩, ⟨0, .alldone, 1, 1⟩]) := rfl
  obtain ⟨s, hs, hreach, hl⟩ := Transition.exists_of_run_map hrun
  obtain ⟨hloc, hreturned⟩ := Prod.mk.inj hl
  have hall := (total_of_schedule twoThreads 3 (rangeMessage 0 0) hreach).2 6 (by rw [hloc]; rfl)
  exact ⟨s, hs, hloc, hreturned, hall.2.2.1⟩

end Addem

end OperatingSystems
