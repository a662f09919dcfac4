import Mathlib.Algebra.GroupWithZero.Nat
import Mathlib.Data.Int.ConditionallyCompleteOrder
import OperatingSystems.ProcessInfo.Syscall

/-!
# The times of the children

The two loops over the children go over the same list, and both add the times of
every child. Each child is counted twice, so `cutime` and `cstime` are right only
where there is nothing to add.
-/

namespace OperatingSystems

namespace ProcessInfo

variable {C : Type*}

/-- The sum of some times in microseconds. -/
def usecs (times : List (BitVec 64)) : ℕ := (times.map BitVec.toNat).sum

/-- `cutime` and `cstime` as the structure documents them: the user time and the
system time of the children, with each child counted once. -/
def ChildTimesCorrect (cputimeToUsecs : C → BitVec 64) (curr : Current C) : Prop :=
  (curr.pinfo cputimeToUsecs).cutime.toInt =
      usecs (curr.children.map fun c => cputimeToUsecs c.utime) ∧
    (curr.pinfo cputimeToUsecs).cstime.toInt =
      usecs (curr.children.map fun c => cputimeToUsecs c.stime)

section Sums

/-- The sum that a `long long` variable comes to is right up to multiples of
`2 ^ 64`. -/
theorem toNat_foldl_add (total : BitVec 64) (times : List (BitVec 64)) :
    (times.foldl (· + ·) total).toNat = (total.toNat + usecs times) % 2 ^ 64 := by
  induction times generalizing total with
  | nil => exact (Nat.mod_eq_of_lt total.isLt).symm
  | cons time times ih =>
      rw [List.foldl_cons, ih, BitVec.toNat_add, Nat.mod_add_mod, usecs, usecs, List.map_cons,
        List.sum_cons, Nat.add_assoc]

theorem usecs_append (times times' : List (BitVec 64)) :
    usecs (times ++ times') = usecs times + usecs times' := by
  rw [usecs, List.map_append, List.sum_append]
  rfl

theorem usecs_reverse (times : List (BitVec 64)) : usecs times.reverse = usecs times := by
  rw [usecs, List.map_reverse, List.sum_reverse]
  rfl

theorem usecs_eq_zero_iff {times : List (BitVec 64)} :
    usecs times = 0 ↔ ∀ time ∈ times, time = 0 := by
  rw [usecs, List.sum_eq_zero_iff_forall_eq_nat, List.forall_mem_map]
  refine forall₂_congr fun time _ => ?_
  exact ⟨fun h => BitVec.eq_of_toNat_eq h, fun h => congrArg BitVec.toNat h⟩

/-- A sum taken twice is the sum just when it is zero. -/
theorem toInt_twice_iff {n : ℕ} {total : BitVec 64} (h : total.toNat = (n + n) % 2 ^ 64) :
    total.toInt = n ↔ n = 0 := by
  rw [BitVec.toInt_eq_toNat_cond, h]
  split <;> omega

end Sums

section Loops

variable (cputimeToUsecs : C → BitVec 64)

theorem cutime_childStep (v : ChildLoop) (c : Process C) :
    (childStep cputimeToUsecs v c).cutime = v.cutime + cputimeToUsecs c.utime := by
  dsimp only [childStep]
  split <;> rfl

theorem cstime_childStep (v : ChildLoop) (c : Process C) :
    (childStep cputimeToUsecs v c).cstime = v.cstime + cputimeToUsecs c.stime := by
  dsimp only [childStep]
  split <;> rfl

variable {cputimeToUsecs} {total : ChildLoop → BitVec 64} {time : Process C → BitVec 64}

/-- A loop over the children adds up their times. -/
theorem foldl_childStep
    (hstep : ∀ v c, total (childStep cputimeToUsecs v c) = total v + time c) (v : ChildLoop)
    (l : List (Process C)) :
    total (l.foldl (childStep cputimeToUsecs) v) = (l.map time).foldl (· + ·) (total v) := by
  induction l generalizing v with
  | nil => rfl
  | cons c l ih => rw [List.foldl_cons, ih, hstep, List.map_cons, List.foldl_cons]

/-- The second loop adds what the first one has added. -/
theorem toNat_childLoops
    (hstep : ∀ v c, total (childStep cputimeToUsecs v c) = total v + time c)
    (hstart : ∀ tmpSt1 tmpPid1, total ⟨0, 0, tmpSt1, tmpPid1⟩ = 0#64) (curr : Current C) :
    (total (curr.childLoops cputimeToUsecs)).toNat =
      (usecs (curr.children.map time) + usecs (curr.children.map time)) % 2 ^ 64 := by
  rw [Current.childLoops, foldl_childStep hstep, toNat_foldl_add, List.map_append,
    List.map_reverse, usecs_append, usecs_reverse, hstart, BitVec.toNat_zero, Nat.zero_add]

end Loops

/-- The two fields are right just when no child has used any time. -/
theorem childTimesCorrect_iff (cputimeToUsecs : C → BitVec 64) (curr : Current C) :
    ChildTimesCorrect cputimeToUsecs curr ↔
      ∀ c ∈ curr.children, cputimeToUsecs c.utime = 0 ∧ cputimeToUsecs c.stime = 0 := by
  have hcutime := toNat_childLoops (cutime_childStep cputimeToUsecs) (fun _ _ => rfl) curr
  have hcstime := toNat_childLoops (cstime_childStep cputimeToUsecs) (fun _ _ => rfl) curr
  rw [ChildTimesCorrect, Current.pinfo, toInt_twice_iff hcutime, toInt_twice_iff hcstime,
    usecs_eq_zero_iff, usecs_eq_zero_iff, List.forall_mem_map, List.forall_mem_map]
  exact ⟨fun h c hc => ⟨h.1 c hc, h.2 c hc⟩, fun h => ⟨fun c hc => (h c hc).1,
    fun c hc => (h c hc).2⟩⟩

section Example

/-- A process with one child that has used one microsecond. -/
def parentOfBusy : Current ℕ where
  state := 0
  pid := 42
  parentPid := 1
  startTime := 200
  uid := 1000
  utime := 0
  stime := 0
  children := [⟨⟨44, 300⟩, 1, 0, by decide⟩]
  following := []
  head := ⟨0, 0⟩
  preceding := []

/-- Two microseconds are reported for the child. -/
theorem cutime_parentOfBusy :
    (parentOfBusy.pinfo (BitVec.ofNat 64)).cutime = 2 ∧
      ¬ ChildTimesCorrect (BitVec.ofNat 64) parentOfBusy := by
  refine ⟨by decide, fun h => ?_⟩
  exact absurd h.1 (by decide)

end Example

end ProcessInfo

end OperatingSystems
