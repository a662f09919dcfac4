import OperatingSystems.ProcessInfo.Children
import OperatingSystems.ProcessInfo.Siblings

/-!
# The reports of a family

A parent and its children ask for their information one after the other, with
the list of the children unchanged. What they are told fits together: put in the
order of their start times, the children are linked forward by `younger_sibling`
and backward by `older_sibling`, and `youngest_child` of the parent is where the
chain begins. The order in which the kernel keeps them does not matter.
-/

namespace OperatingSystems

namespace ProcessInfo

open OperatingSystems

/-- A child with what only its own report shows. -/
structure Member (C : Type*) extends Process C where
  state : ℤ
  uid : ℕ
  children : List (Process C)

/-- A process and its children, in the order of the list. -/
structure Family (C : Type*) where
  parent : Current C
  members : List (Member C)
  /-- What the head of the list looks like to the children. -/
  head : Node
  children_eq : parent.children = members.map Member.toProcess

variable {C : Type*}

/-- The `i`-th child as the calling process. -/
def Family.child (f : Family C) (i : Fin f.members.length) : Current C where
  state := f.members[i].state
  pid := f.members[i].pid
  parentPid := f.parent.pid
  startTime := f.members[i].startTime
  uid := f.members[i].uid
  utime := f.members[i].utime
  stime := f.members[i].stime
  children := f.members[i].children
  following := (f.members.drop (i + 1)).map Member.toProcess
  head := f.head
  preceding := (f.members.take i).map Member.toProcess

/-- The number at one end of a list of children. -/
def pidOf (m : Option (Member C)) : ℤ := (m.map fun m => m.pid).getD (-1)

/-- The reports link the children in the order of `l`. -/
structure Family.Linked (f : Family C) (cputimeToUsecs : C → BitVec 64) (l : List (Member C)) :
    Prop where
  first : (f.parent.pinfo cputimeToUsecs).youngestChild = pidOf l.head?
  younger : ∀ i before after, l = before ++ f.members[i] :: after →
    ((f.child i).pinfo cputimeToUsecs).youngerSibling = pidOf after.head?
  older : ∀ i before after, l = before ++ f.members[i] :: after →
    ((f.child i).pinfo cputimeToUsecs).olderSibling = pidOf before.getLast?

/-- The children are known by their start times, which are positive, and the head of
the list is not taken for one of them. -/
structure Family.Regular (f : Family C) : Prop where
  nodup : (f.members.map fun m => m.startTime).Nodup
  pos : ∀ m ∈ f.members, 0 < m.startTime.toInt
  head : ∀ i, ¬ (f.child i).HeadOlder ∧ ¬ (f.child i).HeadYounger

namespace Current

variable {curr : Current C} (cputimeToUsecs : C → BitVec 64)
  (hnodup : (curr.siblings.map fun s => s.startTime).Nodup)
  (hpos : ∀ s ∈ curr.siblings, 0 < s.startTime.toInt)

include hnodup hpos

theorem isOlderSibling_pinfo (h : ¬ curr.HeadOlder) :
    curr.IsOlderSibling (curr.pinfo cputimeToUsecs).olderSibling := by
  have hright := isOlderSibling_olderPass hnodup hpos
  rw [← olderPass_of_not_headOlder h, ← tmpPid1_siblingLoops] at hright
  change curr.IsOlderSibling
    (if curr.siblingLoops.tmpPid1 = 0 then -1 else curr.siblingLoops.tmpPid1)
  rwa [if_neg hright.ne_zero]

theorem isYoungerSibling_pinfo (h : ¬ curr.HeadYounger) :
    curr.IsYoungerSibling (curr.pinfo cputimeToUsecs).youngerSibling := by
  have hright := isYoungerSibling_youngerPass hnodup hpos
  rwa [← youngerPass_of_not_headYounger h, ← tmpPid2_siblingLoops] at hright

end Current

namespace Family

variable {f : Family C} {i : Fin f.members.length}

/-- The siblings of a child are the other children. -/
theorem perm_siblings (f : Family C) (i : Fin f.members.length) :
    (f.members.map Member.toProcess).Perm (f.members[i].toProcess :: (f.child i).siblings) := by
  have hsplit : f.members = f.members.take i ++ f.members[i] :: f.members.drop (i + 1) := by
    rw [Fin.getElem_fin, List.getElem_cons_drop, List.take_append_drop]
  have hperm : f.members.Perm (f.members[i] :: (f.members.drop (i + 1) ++ f.members.take i)) := by
    conv_lhs => rw [hsplit]
    exact List.perm_middle.trans (List.perm_append_comm.cons _)
  have hmap := hperm.map Member.toProcess
  rwa [List.map_cons, List.map_append] at hmap

/-- Around a child the others, in any order of the children. -/
theorem perm_siblings_of_split {before after : List (Member C)}
    (hl : (before ++ f.members[i] :: after).Perm f.members) :
    (f.child i).siblings.Perm ((before ++ after).map Member.toProcess) := by
  have h := ((hl.map Member.toProcess).trans (f.perm_siblings i)).symm.trans
    (List.perm_middle.map Member.toProcess)
  exact h.cons_inv

theorem Regular.siblings_nodup (h : f.Regular) (i : Fin f.members.length) :
    ((f.child i).siblings.map fun s => s.startTime).Nodup := by
  have hperm := (f.perm_siblings i).map fun s : Process C => s.startTime
  rw [List.map_map, List.map_cons] at hperm
  exact (hperm.nodup_iff.mp h.nodup).of_cons

theorem Regular.siblings_pos (h : f.Regular) (i : Fin f.members.length) :
    ∀ s ∈ (f.child i).siblings, 0 < s.startTime.toInt := by
  intro s hs
  obtain ⟨m, hm, rfl⟩ := List.mem_map.mp ((f.perm_siblings i).mem_iff.mpr
    (List.mem_cons_of_mem _ hs))
  exact h.pos m hm

/-- Two children in the order of their start times. -/
def Earlier (m m' : Member C) : Prop :=
  m.startTime.toInt < m'.startTime.toInt

section Sorted

variable {before after : List (Member C)} (cputimeToUsecs : C → BitVec 64)

/-- In a list that is in order, the next younger sibling is the next one. -/
theorem younger_of_split (h : f.Regular) (hl : (before ++ f.members[i] :: after).Perm f.members)
    (hsorted : (before ++ f.members[i] :: after).Pairwise Earlier) :
    ((f.child i).pinfo cputimeToUsecs).youngerSibling = pidOf after.head? := by
  have hright := Current.isYoungerSibling_pinfo cputimeToUsecs (h.siblings_nodup i)
    (h.siblings_pos i) (h.head i).2
  have hsiblings := perm_siblings_of_split hl
  obtain ⟨-, hcons, hbefore⟩ := List.pairwise_append.mp hsorted
  -- no child in front is younger
  have hnot : ∀ m ∈ before, ¬ (f.members[i]).startTime.toInt < m.startTime.toInt :=
    fun m hm => (hbefore m hm _ List.mem_cons_self).asymm
  cases after with
  | nil =>
      refine hright.1 fun s hs => ?_
      obtain ⟨m, hm, rfl⟩ := List.mem_map.mp (hsiblings.mem_iff.mp hs)
      exact hnot m (by simpa using hm)
  | cons d rest =>
      obtain ⟨hyounger, hrest⟩ := List.pairwise_cons.mp hcons
      refine hright.2 d.toProcess (hsiblings.mem_iff.mpr (List.mem_map_of_mem (by simp)))
        (hyounger d List.mem_cons_self) fun u hu hlt => ?_
      obtain ⟨m, hm, rfl⟩ := List.mem_map.mp (hsiblings.mem_iff.mp hu)
      rcases List.mem_append.mp hm with hm | hm
      · exact absurd hlt (hnot m hm)
      · rcases List.mem_cons.mp hm with rfl | hm
        · exact le_rfl
        · exact ((List.pairwise_cons.mp hrest).1 m hm).le

/-- And the next older one is the one in front. -/
theorem older_of_split (h : f.Regular) (hl : (before ++ f.members[i] :: after).Perm f.members)
    (hsorted : (before ++ f.members[i] :: after).Pairwise Earlier) :
    ((f.child i).pinfo cputimeToUsecs).olderSibling = pidOf before.getLast? := by
  have hright := Current.isOlderSibling_pinfo cputimeToUsecs (h.siblings_nodup i)
    (h.siblings_pos i) (h.head i).1
  have hsiblings := perm_siblings_of_split hl
  obtain ⟨hfront, hcons, hbefore⟩ := List.pairwise_append.mp hsorted
  have hnot : ∀ m ∈ after, ¬ m.startTime.toInt < (f.members[i]).startTime.toInt :=
    fun m hm => ((List.pairwise_cons.mp hcons).1 m hm).asymm
  rcases before.eq_nil_or_concat with rfl | ⟨front, d, rfl⟩
  · refine hright.1 fun s hs => ?_
    obtain ⟨m, hm, rfl⟩ := List.mem_map.mp (hsiblings.mem_iff.mp hs)
    exact hnot m (by simpa using hm)
  · rw [List.concat_eq_append] at *
    rw [List.getLast?_concat]
    refine hright.2 d.toProcess (hsiblings.mem_iff.mpr (List.mem_map_of_mem (by simp)))
      (hbefore d (by simp) _ List.mem_cons_self) fun u hu hlt => ?_
    obtain ⟨m, hm, rfl⟩ := List.mem_map.mp (hsiblings.mem_iff.mp hu)
    rcases List.mem_append.mp hm with hm | hm
    · rcases List.mem_append.mp hm with hm | hm
      · exact ((List.pairwise_append.mp hfront).2.2 m hm d (by simp)).le
      · exact (List.mem_singleton.mp hm ▸ le_rfl)
    · exact absurd hlt (hnot m hm)

/-- The child that the parent is told about is the first one. -/
theorem youngestChild_of_sorted (h : f.Regular) {l : List (Member C)} (hl : l.Perm f.members)
    (hsorted : l.Pairwise Earlier) :
    (f.parent.pinfo cputimeToUsecs).youngestChild = pidOf l.head? := by
  cases l with
  | nil =>
      have hnil : f.parent.children = [] := by rw [f.children_eq, hl.nil_eq.symm, List.map_nil]
      rw [youngestChild_eq, hnil, Extreme.pass_nil]
      rfl
  | cons c l =>
      have hc : c ∈ f.members := hl.mem_iff.mp List.mem_cons_self
      have hnodup : (f.parent.children.map fun c => c.startTime).Nodup := by
        rw [f.children_eq, List.map_map]
        exact h.nodup
      have hnonneg : ∀ c ∈ f.parent.children, 0 ≤ c.startTime.toInt := by
        rw [f.children_eq]
        intro s hs
        obtain ⟨m, hm, rfl⟩ := List.mem_map.mp hs
        exact (h.pos m hm).le
      refine youngestChild_of_oldest hnodup hnonneg (c := c.toProcess)
        (f.children_eq ▸ List.mem_map_of_mem hc) fun d hd => ?_
      rw [f.children_eq] at hd
      obtain ⟨m, hm, rfl⟩ := List.mem_map.mp hd
      rcases List.mem_cons.mp (hl.mem_iff.mpr hm) with rfl | hm
      · exact le_rfl
      · exact ((List.pairwise_cons.mp hsorted).1 m hm).le

end Sorted

/-- The children can be put in the order of their start times. -/
theorem Regular.exists_sorted (h : f.Regular) :
    ∃ l : List (Member C), l.Perm f.members ∧ l.Pairwise Earlier := by
  let le : Member C → Member C → Bool := fun m m' => m.startTime.toInt ≤ m'.startTime.toInt
  have hperm := List.mergeSort_perm f.members le
  have hle : (f.members.mergeSort le).Pairwise fun m m' => le m m' = true := by
    refine List.pairwise_mergeSort (fun a b c hab hbc => ?_) (fun a b => ?_) f.members
    · exact decide_eq_true ((of_decide_eq_true hab).trans (of_decide_eq_true hbc))
    · rw [Bool.or_eq_true, decide_eq_true_iff, decide_eq_true_iff]
      exact le_total _ _
  have hne : (f.members.mergeSort le).Pairwise fun m m' => m.startTime ≠ m'.startTime :=
    List.pairwise_map.mp ((hperm.map fun m : Member C => m.startTime).nodup_iff.mpr h.nodup)
  exact ⟨_, hperm, (hle.and hne).imp fun h =>
    lt_of_le_of_ne (of_decide_eq_true h.1) fun heq => h.2 (BitVec.eq_of_toInt_eq heq)⟩

end Family

/-- In every family with different start times, in whatever order the kernel keeps
the children, the reports link the children in the order of their start times. -/
theorem linked_of_regular (cputimeToUsecs : C → BitVec 64) (f : Family C) (h : f.Regular) :
    ∃ l, l.Perm f.members ∧ l.Pairwise Family.Earlier ∧ f.Linked cputimeToUsecs l := by
  obtain ⟨l, hl, hsorted⟩ := h.exists_sorted
  refine ⟨l, hl, hsorted, Family.youngestChild_of_sorted cputimeToUsecs h hl hsorted, ?_, ?_⟩
  · intro i before after heq
    exact Family.younger_of_split cputimeToUsecs h (heq ▸ hl) (heq ▸ hsorted)
  · intro i before after heq
    exact Family.older_of_split cputimeToUsecs h (heq ▸ hl) (heq ▸ hsorted)

section Example

/-- A child that has not used any CPU time. -/
def idleChild (n : ℕ) (startTime : BitVec 64) : Member ℕ :=
  ⟨⟨⟨n.succ, startTime⟩, 0, 0, Int.natCast_succ_pos n⟩, 0, 1000, []⟩

/-- Three children, kept by the kernel in another order than they were started in. -/
def threeChildren : Family ℕ where
  parent := parentOf ([idleChild 42 300, idleChild 40 100, idleChild 41 200].map Member.toProcess)
  members := [idleChild 42 300, idleChild 40 100, idleChild 41 200]
  head := ⟨0, 0⟩
  children_eq := rfl

theorem regular_threeChildren : threeChildren.Regular where
  nodup := by decide
  pos := by decide
  head := fun i => by
    have hafter : ∀ i, ¬ (threeChildren.child i).startTime.toInt <
        (threeChildren.child i).head.startTime.toInt := by decide
    exact ⟨fun h => lt_irrefl 0 h.pos, fun h => hafter i h.after⟩

theorem linked_threeChildren :
    ∃ l, l.Perm threeChildren.members ∧ l.Pairwise Family.Earlier ∧
      threeChildren.Linked (BitVec.ofNat 64) l :=
  linked_of_regular (BitVec.ofNat 64) threeChildren regular_threeChildren

end Example

end ProcessInfo

end OperatingSystems
