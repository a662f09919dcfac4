import Mathlib.Algebra.Group.Nat.Defs
import Mathlib.Data.Int.Basic

/-!
# The process information system call

`intercept` replaces `cs3013_syscall2` by a function that fills a
`struct processinfo` about the calling process. It goes over the children of the
process twice, forward and backward, and then over the list that the process is
in itself, again in both directions.

That list is a ring of the nodes of all children of the parent, and the head of
the list, which is part of the parent, is in it too. `list_for_each` from the
node of the process visits every other node of the ring. `list_entry` takes the
memory around the head for a process like any other.

Start times are `long long`, and the two extremes that the loops keep are
`unsigned long long`: a comparison of one with the other is unsigned.
-/

namespace OperatingSystems

namespace ProcessInfo

/-- What the loops read through a node of a list. -/
structure Node where
  pid : ℤ
  startTime : BitVec 64

/-- A process in a list of children. `C` is `cputime_t`. -/
structure Process (C : Type*) extends Node where
  utime : C
  stime : C
  pid_pos : 0 < pid

/-- `curr_info`, with the lists that it is the head of and that it is in. -/
structure Current (C : Type*) where
  state : ℤ
  pid : ℤ
  parentPid : ℤ
  startTime : BitVec 64
  uid : ℕ
  utime : C
  stime : C
  children : List (Process C)
  /-- The siblings from the process on up to the head of the list. -/
  following : List (Process C)
  /-- What the head of the list looks like. -/
  head : Node
  /-- The siblings from the head of the list on up to the process. -/
  preceding : List (Process C)

/-- `struct processinfo`. -/
structure Info where
  state : ℤ
  pid : ℤ
  parentPid : ℤ
  youngestChild : ℤ
  youngerSibling : ℤ
  olderSibling : ℤ
  uid : ℕ
  startTime : BitVec 64
  userTime : BitVec 64
  sysTime : BitVec 64
  cutime : BitVec 64
  cstime : BitVec 64

/-- The variables of the loops over the children. -/
structure ChildLoop where
  cutime : BitVec 64
  cstime : BitVec 64
  tmpSt1 : BitVec 64
  tmpPid1 : ℤ

/-- The variables of the loops over the siblings. -/
structure SiblingLoop where
  tmpSt1 : BitVec 64
  tmpPid1 : ℤ
  tmpSt2 : BitVec 64
  tmpPid2 : ℤ

section Loops

variable {C : Type*} (cputimeToUsecs : C → BitVec 64)

/-- The body of the loops over the children. -/
def childStep (v : ChildLoop) (task : Process C) : ChildLoop :=
  let timeNs := task.startTime
  let v := { v with
    cutime := v.cutime + cputimeToUsecs task.utime
    cstime := v.cstime + cputimeToUsecs task.stime }
  if v.tmpSt1.toNat > timeNs.toNat then { v with tmpSt1 := timeNs, tmpPid1 := task.pid } else v

/-- The body of the loops over the siblings of a process started at `startTime`. -/
def siblingStep (startTime : BitVec 64) (v : SiblingLoop) (task : Node) : SiblingLoop :=
  let timeNs := task.startTime
  if timeNs.toInt < startTime.toInt ∧ v.tmpSt1.toNat < timeNs.toNat then
    { v with tmpSt1 := timeNs, tmpPid1 := task.pid }
  else if timeNs.toInt > startTime.toInt ∧ v.tmpSt2.toNat > timeNs.toNat then
    { v with tmpSt2 := timeNs, tmpPid2 := task.pid }
  else v

end Loops

namespace Current

variable {C : Type*} (cputimeToUsecs : C → BitVec 64) (curr : Current C)

/-- The nodes that `list_for_each` visits from `curr_info->sibling` on. -/
def ring : List Node :=
  curr.following.map Process.toNode ++ curr.head :: curr.preceding.map Process.toNode

/-- The two loops over the children. -/
def childLoops : ChildLoop :=
  (curr.children ++ curr.children.reverse).foldl (childStep cputimeToUsecs)
    { cutime := 0, cstime := 0, tmpSt1 := -1, tmpPid1 := -1 }

/-- The two loops over the siblings. -/
def siblingLoops : SiblingLoop :=
  (curr.ring ++ curr.ring.reverse).foldl (siblingStep curr.startTime)
    { tmpSt1 := 0, tmpPid1 := -1, tmpSt2 := -1, tmpPid2 := -1 }

/-- `pinfo` at the end of `new_sys_cs3013_syscall2`. -/
def pinfo : Info where
  state := curr.state
  pid := curr.pid
  parentPid := curr.parentPid
  youngestChild := (curr.childLoops cputimeToUsecs).tmpPid1
  youngerSibling := curr.siblingLoops.tmpPid2
  olderSibling := if curr.siblingLoops.tmpPid1 = 0 then -1 else curr.siblingLoops.tmpPid1
  uid := curr.uid
  startTime := curr.startTime
  userTime := cputimeToUsecs curr.utime
  sysTime := cputimeToUsecs curr.stime
  cutime := (curr.childLoops cputimeToUsecs).cutime
  cstime := (curr.childLoops cputimeToUsecs).cstime

/-- `EFAULT`. -/
def efault : ℤ := 14

/-- The value returned, and what the caller finds in its structure. -/
def newSysCs3013Syscall2 (copyToUser : Bool) : ℤ × Option Info :=
  if copyToUser then (1, some (curr.pinfo cputimeToUsecs)) else (efault, none)

end Current

/-- A start time that is not negative is the same number as an unsigned one. -/
theorem toInt_eq_toNat {x : BitVec 64} (h : 0 ≤ x.toInt) : x.toInt = x.toNat := by
  rw [BitVec.toInt_eq_toNat_cond] at h ⊢
  have hlt := x.isLt
  split at h <;> split <;> omega

theorem toNat_lt_of_nonneg {x : BitVec 64} (h : 0 ≤ x.toInt) : x.toNat < 2 ^ 64 - 1 := by
  have hnat := toInt_eq_toNat h
  have hlt := BitVec.toInt_lt (x := x)
  omega

end ProcessInfo

end OperatingSystems
