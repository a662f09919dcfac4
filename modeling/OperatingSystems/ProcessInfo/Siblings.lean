import Mathlib.Data.Int.ConditionallyCompleteOrder
import Mathlib.Data.List.Nodup
import Mathlib.Order.OrderDual
import OperatingSystems.Extreme.Running
import OperatingSystems.ProcessInfo.Syscall

/-!
# The older and the younger sibling

The two loops over the ring keep the greatest start time below that of the
process and the smallest one above it. Both extremes are right for the siblings,
but the head of the list takes part like a sibling. Where what lies around the
head is taken for a start time between that of the process and that of the
sibling to be found, the number read there is reported instead.
-/

namespace OperatingSystems

namespace ProcessInfo

open OperatingSystems

variable {C : Type*}

namespace Current

/-- The siblings, in the order of the ring. -/
def siblings (curr : Current C) : List (Process C) :=
  curr.following ++ curr.preceding

/-- `pid` is that of the sibling that started last before the process, or -1
where no sibling started before it. -/
def IsOlderSibling (curr : Current C) (pid : ℤ) : Prop :=
  ((∀ s ∈ curr.siblings, ¬ s.startTime.toInt < curr.startTime.toInt) → pid = -1) ∧
    ∀ s ∈ curr.siblings, s.startTime.toInt < curr.startTime.toInt →
      (∀ u ∈ curr.siblings, u.startTime.toInt < curr.startTime.toInt →
        u.startTime.toInt ≤ s.startTime.toInt) → pid = s.pid

/-- `pid` is that of the sibling that started first after the process, or -1
where no sibling started after it. -/
def IsYoungerSibling (curr : Current C) (pid : ℤ) : Prop :=
  ((∀ s ∈ curr.siblings, ¬ curr.startTime.toInt < s.startTime.toInt) → pid = -1) ∧
    ∀ s ∈ curr.siblings, curr.startTime.toInt < s.startTime.toInt →
      (∀ u ∈ curr.siblings, curr.startTime.toInt < u.startTime.toInt →
        s.startTime.toInt ≤ u.startTime.toInt) → pid = s.pid

/-- The head of the list looks like a sibling that started before the process,
and after every other one that did. With the start time of another one, the one
that comes first in the ring is taken. -/
structure HeadOlder (curr : Current C) : Prop where
  before : curr.head.startTime.toInt < curr.startTime.toInt
  pos : 0 < curr.head.startTime.toNat
  following : ∀ s ∈ curr.following, s.startTime.toInt < curr.startTime.toInt →
    s.startTime.toNat < curr.head.startTime.toNat
  preceding : ∀ s ∈ curr.preceding, s.startTime.toInt < curr.startTime.toInt →
    s.startTime.toNat ≤ curr.head.startTime.toNat

/-- The head of the list looks like a sibling that started after the process,
and before every other one that did. -/
structure HeadYounger (curr : Current C) : Prop where
  after : curr.startTime.toInt < curr.head.startTime.toInt
  below : curr.head.startTime.toNat < 2 ^ 64 - 1
  following : ∀ s ∈ curr.following, curr.startTime.toInt < s.startTime.toInt →
    curr.head.startTime.toNat < s.startTime.toNat
  preceding : ∀ s ∈ curr.preceding, curr.startTime.toInt < s.startTime.toInt →
    curr.head.startTime.toNat ≤ s.startTime.toNat

end Current

namespace SiblingLoop

/-- The greatest start time so far below that of the process. -/
def older (v : SiblingLoop) : ℕᵒᵈ × ℤ :=
  (OrderDual.toDual v.tmpSt1.toNat, v.tmpPid1)

/-- The smallest start time so far above that of the process. -/
def younger (v : SiblingLoop) : ℕ × ℤ :=
  (v.tmpSt2.toNat, v.tmpPid2)

end SiblingLoop

/-- The pass for the greatest start time below `t`. -/
def olderPass (t : BitVec 64) (b : ℕᵒᵈ × ℤ) (l : List Node) : ℕᵒᵈ × ℤ :=
  Extreme.pass (fun n => n.startTime.toInt < t.toInt)
    (fun n => OrderDual.toDual n.startTime.toNat) Node.pid b l

/-- The pass for the smallest start time above `t`. -/
def youngerPass (t : BitVec 64) (b : ℕ × ℤ) (l : List Node) : ℕ × ℤ :=
  Extreme.pass (fun n => t.toInt < n.startTime.toInt) (fun n => n.startTime.toNat) Node.pid b l

theorem older_siblingStep (t : BitVec 64) (v : SiblingLoop) (n : Node) :
    (siblingStep t v n).older = olderPass t v.older [n] := by
  unfold siblingStep olderPass SiblingLoop.older
  rw [Extreme.pass_cons, Extreme.pass_nil, Extreme.step]
  by_cases h : n.startTime.toInt < t.toInt ∧ v.tmpSt1.toNat < n.startTime.toNat
  · rw [if_pos h, if_pos ⟨h.1, OrderDual.toDual_lt_toDual.mpr h.2⟩]
  · have h' : ¬ (n.startTime.toInt < t.toInt ∧
        OrderDual.toDual n.startTime.toNat < OrderDual.toDual v.tmpSt1.toNat) := h
    rw [if_neg h, if_neg h']
    split <;> rfl

theorem younger_siblingStep (t : BitVec 64) (v : SiblingLoop) (n : Node) :
    (siblingStep t v n).younger = youngerPass t v.younger [n] := by
  unfold siblingStep youngerPass SiblingLoop.younger
  rw [Extreme.pass_cons, Extreme.pass_nil, Extreme.step]
  by_cases h : n.startTime.toInt < t.toInt ∧ v.tmpSt1.toNat < n.startTime.toNat
  · rw [if_pos h, if_neg fun h' => lt_asymm h.1 h'.1]
  · rw [if_neg h]
    by_cases h' : t.toInt < n.startTime.toInt ∧ n.startTime.toNat < v.tmpSt2.toNat
    · rw [if_pos h', if_pos h']
    · rw [if_neg h', if_neg h']

/-- The body of the loops does both at once, since no start time is on both
sides of that of the process. -/
theorem older_foldl (t : BitVec 64) (v : SiblingLoop) (l : List Node) :
    (l.foldl (siblingStep t) v).older = olderPass t v.older l := by
  induction l generalizing v with
  | nil => rfl
  | cons n l ih =>
      rw [List.foldl_cons, ih, older_siblingStep]
      rfl

theorem younger_foldl (t : BitVec 64) (v : SiblingLoop) (l : List Node) :
    (l.foldl (siblingStep t) v).younger = youngerPass t v.younger l := by
  induction l generalizing v with
  | nil => rfl
  | cons n l ih =>
      rw [List.foldl_cons, ih, younger_siblingStep]
      rfl

section Ring

variable {κ : Type*} [LinearOrder κ] {p : Node → Prop} [DecidablePred p] {key : Node → κ} {k₀ : κ}
variable {curr : Current C}

/-- A pass over the ring from `k₀` on keeps the head of the list: it is the first of
the nodes with the least key. -/
def Current.HeadKept (curr : Current C) (p : Node → Prop) (key : Node → κ) (k₀ : κ) : Prop :=
  p curr.head ∧ key curr.head < k₀ ∧
    (∀ s ∈ curr.following, p s.toNode → key curr.head < key s.toNode) ∧
    ∀ s ∈ curr.preceding, p s.toNode → key curr.head ≤ key s.toNode

theorem Current.HeadKept.pass_ring (h : curr.HeadKept p key k₀) (pid : ℤ) :
    (Extreme.pass p key Node.pid (k₀, pid) curr.ring).2 = curr.head.pid := by
  obtain ⟨hhead, hlt, hfollowing, hpreceding⟩ := h
  refine congrArg Prod.snd (Extreme.pass_of_first hhead hlt ?_ ?_)
  · intro n hn hp
    obtain ⟨s, hs, rfl⟩ := List.mem_map.mp hn
    exact hfollowing s hs hp
  · intro n hn hp
    obtain ⟨s, hs, rfl⟩ := List.mem_map.mp hn
    exact hpreceding s hs hp

/-- Otherwise the pass is one over the siblings alone. -/
theorem pass_ring_of_not_headKept (h : ¬ curr.HeadKept p key k₀) (pid : ℤ) :
    Extreme.pass p key Node.pid (k₀, pid) curr.ring =
      Extreme.pass p key Node.pid (k₀, pid) (curr.siblings.map Process.toNode) := by
  rw [Current.siblings, List.map_append]
  refine Extreme.pass_insert fun ⟨hhead, hlt, hfollowing, hpreceding⟩ => h ⟨hhead, hlt, ?_, ?_⟩
  · exact fun s hs hp => hfollowing _ (List.mem_map_of_mem hs) hp
  · exact fun s hs hp => hpreceding _ (List.mem_map_of_mem hs) hp

end Ring

section Passes

variable {curr : Current C}

/-- What the loops start with, and find again in the loop backward. -/
theorem tmpPid1_siblingLoops (curr : Current C) :
    curr.siblingLoops.tmpPid1 =
      (olderPass curr.startTime (OrderDual.toDual 0, -1) curr.ring).2 := by
  have h := older_foldl curr.startTime
    { tmpSt1 := 0, tmpPid1 := -1, tmpSt2 := -1, tmpPid2 := -1 } (curr.ring ++ curr.ring.reverse)
  rw [olderPass, Extreme.pass_append_of_subset _ fun n hn => List.mem_reverse.mp hn] at h
  exact congrArg Prod.snd h

theorem tmpPid2_siblingLoops (curr : Current C) :
    curr.siblingLoops.tmpPid2 = (youngerPass curr.startTime (2 ^ 64 - 1, -1) curr.ring).2 := by
  have h := younger_foldl curr.startTime
    { tmpSt1 := 0, tmpPid1 := -1, tmpSt2 := -1, tmpPid2 := -1 } (curr.ring ++ curr.ring.reverse)
  rw [youngerPass, Extreme.pass_append_of_subset _ fun n hn => List.mem_reverse.mp hn] at h
  exact congrArg Prod.snd h

theorem headKept_older (curr : Current C) :
    curr.HeadKept (fun n => n.startTime.toInt < curr.startTime.toInt)
      (fun n => OrderDual.toDual n.startTime.toNat) (OrderDual.toDual 0) ↔ curr.HeadOlder :=
  ⟨fun ⟨hbefore, hpos, hfollowing, hpreceding⟩ => ⟨hbefore, hpos, hfollowing, hpreceding⟩,
    fun ⟨hbefore, hpos, hfollowing, hpreceding⟩ => ⟨hbefore, hpos, hfollowing, hpreceding⟩⟩

theorem headKept_younger (curr : Current C) :
    curr.HeadKept (fun n => curr.startTime.toInt < n.startTime.toInt)
      (fun n => n.startTime.toNat) (2 ^ 64 - 1) ↔ curr.HeadYounger :=
  ⟨fun ⟨hafter, hbelow, hfollowing, hpreceding⟩ => ⟨hafter, hbelow, hfollowing, hpreceding⟩,
    fun ⟨hafter, hbelow, hfollowing, hpreceding⟩ => ⟨hafter, hbelow, hfollowing, hpreceding⟩⟩

theorem olderPass_of_headOlder (h : curr.HeadOlder) :
    (olderPass curr.startTime (OrderDual.toDual 0, -1) curr.ring).2 = curr.head.pid :=
  ((headKept_older curr).mpr h).pass_ring (-1)

theorem olderPass_of_not_headOlder (h : ¬ curr.HeadOlder) :
    olderPass curr.startTime (OrderDual.toDual 0, -1) curr.ring =
      olderPass curr.startTime (OrderDual.toDual 0, -1) (curr.siblings.map Process.toNode) :=
  pass_ring_of_not_headKept (mt (headKept_older curr).mp h) (-1)

theorem youngerPass_of_headYounger (h : curr.HeadYounger) :
    (youngerPass curr.startTime (2 ^ 64 - 1, -1) curr.ring).2 = curr.head.pid :=
  ((headKept_younger curr).mpr h).pass_ring (-1)

theorem youngerPass_of_not_headYounger (h : ¬ curr.HeadYounger) :
    youngerPass curr.startTime (2 ^ 64 - 1, -1) curr.ring =
      youngerPass curr.startTime (2 ^ 64 - 1, -1) (curr.siblings.map Process.toNode) :=
  pass_ring_of_not_headKept (mt (headKept_younger curr).mp h) (-1)

variable (hnodup : (curr.siblings.map fun s => s.startTime).Nodup)
  (hpos : ∀ s ∈ curr.siblings, 0 < s.startTime.toInt)

include hnodup in
/-- A sibling is known by its start time. -/
theorem toNode_eq_of_startTime {s : Process C} (hs : s ∈ curr.siblings) {n : Node}
    (hn : n ∈ curr.siblings.map Process.toNode)
    (h : n.startTime.toNat = s.startTime.toNat) : n = s.toNode := by
  obtain ⟨u, hu, rfl⟩ := List.mem_map.mp hn
  rw [List.inj_on_of_nodup_map hnodup hu hs (BitVec.eq_of_toNat_eq h)]

include hnodup hpos

/-- Among the siblings alone the greatest start time below is the right one. -/
theorem isOlderSibling_olderPass :
    curr.IsOlderSibling (olderPass curr.startTime (OrderDual.toDual 0, -1)
      (curr.siblings.map Process.toNode)).2 := by
  constructor
  · intro hnone
    rw [olderPass, Extreme.pass_eq_self]
    intro n hn hlt
    obtain ⟨s, hs, rfl⟩ := List.mem_map.mp hn
    exact absurd hlt (hnone s hs)
  · intro s hs hlt hlast
    refine congrArg Prod.snd (Extreme.pass_of_least (List.mem_map_of_mem hs) hlt ?_ ?_ ?_)
    · have hnat := toInt_eq_toNat (hpos s hs).le
      have hs := hpos s hs
      change 0 < s.startTime.toNat
      omega
    · exact fun n hn h => toNode_eq_of_startTime hnodup hs hn h
    · intro n hn hnlt
      obtain ⟨u, hu, rfl⟩ := List.mem_map.mp hn
      have hle := hlast u hu hnlt
      rw [toInt_eq_toNat (hpos u hu).le, toInt_eq_toNat (hpos s hs).le] at hle
      exact Int.ofNat_le.mp hle

theorem isYoungerSibling_youngerPass :
    curr.IsYoungerSibling (youngerPass curr.startTime (2 ^ 64 - 1, -1)
      (curr.siblings.map Process.toNode)).2 := by
  constructor
  · intro hnone
    rw [youngerPass, Extreme.pass_eq_self]
    intro n hn hlt
    obtain ⟨s, hs, rfl⟩ := List.mem_map.mp hn
    exact absurd hlt (hnone s hs)
  · intro s hs hlt hfirst
    refine congrArg Prod.snd (Extreme.pass_of_least (List.mem_map_of_mem hs) hlt ?_ ?_ ?_)
    · exact toNat_lt_of_nonneg (hpos s hs).le
    · exact fun n hn h => toNode_eq_of_startTime hnodup hs hn h
    · intro n hn hnlt
      obtain ⟨u, hu, rfl⟩ := List.mem_map.mp hn
      have hle := hfirst u hu hnlt
      rw [toInt_eq_toNat (hpos u hu).le, toInt_eq_toNat (hpos s hs).le] at hle
      exact Int.ofNat_le.mp hle

omit hnodup hpos

/-- The number of an older sibling is never 0, so the last test of the function
does not change it. -/
theorem Current.IsOlderSibling.ne_zero {pid : ℤ} (h : curr.IsOlderSibling pid) : pid ≠ 0 := by
  by_cases hex : ∃ s ∈ curr.siblings, s.startTime.toInt < curr.startTime.toInt
  · obtain ⟨s, hs, hlt, hlast⟩ := Extreme.exists_least
      (fun s : Process C => s.startTime.toInt < curr.startTime.toInt)
      (fun s => OrderDual.toDual s.startTime.toInt) hex
    rw [h.2 s hs hlt fun u hu hult => hlast u hu hult]
    exact s.pid_pos.ne'
  · rw [h.1 fun s hs hlt => hex ⟨s, hs, hlt⟩]
    decide

end Passes

/-- Both fields are right just when the head of the list is not taken for a
sibling, or the number read there happens to be the right one. -/
theorem siblings_correct_iff (cputimeToUsecs : C → BitVec 64) (curr : Current C)
    (hnodup : (curr.siblings.map fun s => s.startTime).Nodup)
    (hpos : ∀ s ∈ curr.siblings, 0 < s.startTime.toInt) :
    (curr.IsOlderSibling (curr.pinfo cputimeToUsecs).olderSibling ∧
        curr.IsYoungerSibling (curr.pinfo cputimeToUsecs).youngerSibling) ↔
      (curr.HeadOlder → curr.IsOlderSibling (if curr.head.pid = 0 then -1 else curr.head.pid)) ∧
        (curr.HeadYounger → curr.IsYoungerSibling curr.head.pid) := by
  refine and_congr ?_ ?_
  · change curr.IsOlderSibling
      (if curr.siblingLoops.tmpPid1 = 0 then -1 else curr.siblingLoops.tmpPid1) ↔ _
    rw [tmpPid1_siblingLoops]
    by_cases h : curr.HeadOlder
    · rw [olderPass_of_headOlder h]
      exact (imp_iff_right h).symm
    · have hright := isOlderSibling_olderPass hnodup hpos
      rw [olderPass_of_not_headOlder h, if_neg hright.ne_zero]
      exact iff_of_true hright fun h' => absurd h' h
  · change curr.IsYoungerSibling curr.siblingLoops.tmpPid2 ↔ _
    rw [tmpPid2_siblingLoops]
    by_cases h : curr.HeadYounger
    · rw [youngerPass_of_headYounger h]
      exact (imp_iff_right h).symm
    · rw [youngerPass_of_not_headYounger h]
      exact iff_of_true (isYoungerSibling_youngerPass hnodup hpos) fun h' => absurd h' h

section Example

/-- A process started at 200, with one sibling started at 100 and one at 300. -/
def amongSiblings (head : Node) : Current ℕ where
  state := 0
  pid := 42
  parentPid := 1
  startTime := 200
  uid := 1000
  utime := 0
  stime := 0
  children := []
  following := [⟨⟨43, 300⟩, 0, 0, by decide⟩]
  head := head
  preceding := [⟨⟨41, 100⟩, 0, 0, by decide⟩]

theorem siblings_head_zero :
    (amongSiblings ⟨0, 0⟩).IsOlderSibling
        ((amongSiblings ⟨0, 0⟩).pinfo (BitVec.ofNat 64)).olderSibling ∧
      (amongSiblings ⟨0, 0⟩).IsYoungerSibling
        ((amongSiblings ⟨0, 0⟩).pinfo (BitVec.ofNat 64)).youngerSibling :=
  (siblings_correct_iff (BitVec.ofNat 64) (amongSiblings ⟨0, 0⟩) (by decide) (by decide)).mpr
    ⟨fun h => absurd h.pos (by decide), fun h => absurd h.after (by decide)⟩

/-- What lies around the head of the list is taken for a process that started
between the process and its younger sibling. -/
theorem siblings_head_between :
    ¬ ((amongSiblings ⟨77, 250⟩).IsOlderSibling
        ((amongSiblings ⟨77, 250⟩).pinfo (BitVec.ofNat 64)).olderSibling ∧
      (amongSiblings ⟨77, 250⟩).IsYoungerSibling
        ((amongSiblings ⟨77, 250⟩).pinfo (BitVec.ofNat 64)).youngerSibling) := by
  rintro ⟨-, -, hfirst⟩
  have h := hfirst ⟨⟨43, 300⟩, 0, 0, by decide⟩ List.mem_cons_self (by decide) (by decide)
  exact absurd h (by decide)

end Example

end ProcessInfo

end OperatingSystems
