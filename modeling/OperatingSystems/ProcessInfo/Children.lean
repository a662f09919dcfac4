import Mathlib.Data.Int.ConditionallyCompleteOrder
import Mathlib.Data.List.Nodup
import OperatingSystems.Extreme.Running
import OperatingSystems.ProcessInfo.Syscall

/-!
# The youngest child

The loops over the children keep the smallest start time, which is that of the
child that started first. The field `youngest_child` is the child that started
last only where both are the same.
-/

namespace OperatingSystems

namespace ProcessInfo

open OperatingSystems

variable {C : Type*}

/-- `youngest_child` as the structure documents it: the child with the greatest
start time, and -1 without children. -/
def YoungestChildCorrect (cputimeToUsecs : C → BitVec 64) (curr : Current C) : Prop :=
  (curr.children = [] → (curr.pinfo cputimeToUsecs).youngestChild = -1) ∧
    ∀ c ∈ curr.children, (∀ d ∈ curr.children, d.startTime.toInt ≤ c.startTime.toInt) →
      (curr.pinfo cputimeToUsecs).youngestChild = c.pid

/-- The extreme that the loops over the children keep, and its process. -/
def ChildLoop.extreme (v : ChildLoop) : ℕ × ℤ :=
  (v.tmpSt1.toNat, v.tmpPid1)

/-- The loops over the children are a pass for the smallest start time. -/
theorem extreme_foldl_childStep (cputimeToUsecs : C → BitVec 64) (v : ChildLoop)
    (l : List (Process C)) :
    (l.foldl (childStep cputimeToUsecs) v).extreme =
      Extreme.pass (fun _ => True) (fun c => c.startTime.toNat) (fun c => c.pid) v.extreme l := by
  induction l generalizing v with
  | nil => rfl
  | cons c l ih =>
      rw [List.foldl_cons, ih, Extreme.pass_cons]
      congr 1
      unfold childStep Extreme.step ChildLoop.extreme
      by_cases h : c.startTime.toNat < v.tmpSt1.toNat
      · simp only [gt_iff_lt, if_pos h, true_and]
      · simp only [gt_iff_lt, if_neg h, true_and]

/-- The second loop finds nothing smaller than the first one. -/
theorem youngestChild_eq (cputimeToUsecs : C → BitVec 64) (curr : Current C) :
    (curr.pinfo cputimeToUsecs).youngestChild =
      (Extreme.pass (fun _ => True) (fun c => c.startTime.toNat) (fun c => c.pid)
        (2 ^ 64 - 1, -1) curr.children).2 := by
  have h := extreme_foldl_childStep cputimeToUsecs
    { cutime := 0, cstime := 0, tmpSt1 := -1, tmpPid1 := -1 }
    (curr.children ++ curr.children.reverse)
  rw [Extreme.pass_append_of_subset _ fun c hc => List.mem_reverse.mp hc] at h
  exact congrArg Prod.snd h

theorem youngestChild_of_oldest {cputimeToUsecs : C → BitVec 64} {curr : Current C}
    (hnodup : (curr.children.map fun c => c.startTime).Nodup)
    (hnonneg : ∀ c ∈ curr.children, 0 ≤ c.startTime.toInt) {c : Process C}
    (hc : c ∈ curr.children)
    (holdest : ∀ d ∈ curr.children, c.startTime.toInt ≤ d.startTime.toInt) :
    (curr.pinfo cputimeToUsecs).youngestChild = c.pid := by
  have hlt : c.startTime.toNat < 2 ^ 64 - 1 := toNat_lt_of_nonneg (hnonneg c hc)
  have hinj : ∀ d ∈ curr.children, d.startTime.toNat = c.startTime.toNat → d = c :=
    fun d hd h => List.inj_on_of_nodup_map hnodup hd hc (BitVec.eq_of_toNat_eq h)
  have hle : ∀ d ∈ curr.children, True → c.startTime.toNat ≤ d.startTime.toNat := by
    intro d hd _
    have h := holdest d hd
    rw [toInt_eq_toNat (hnonneg c hc), toInt_eq_toNat (hnonneg d hd)] at h
    exact Int.ofNat_le.mp h
  rw [youngestChild_eq, Extreme.pass_of_least hc trivial hlt hinj hle]

/-- Some child started first. -/
theorem exists_oldest (l : List (Process C)) (h : l ≠ []) :
    ∃ c ∈ l, ∀ d ∈ l, c.startTime.toInt ≤ d.startTime.toInt := by
  obtain ⟨c, hc⟩ := List.exists_mem_of_ne_nil l h
  obtain ⟨x, hx, -, hle⟩ := Extreme.exists_least (fun _ => True)
    (fun c : Process C => c.startTime.toInt) ⟨c, hc, trivial⟩
  exact ⟨x, hx, fun d hd => hle d hd trivial⟩

/-- The field is right just when the child that started first and the child that
started last have the same number. -/
theorem youngestChildCorrect_iff (cputimeToUsecs : C → BitVec 64) (curr : Current C)
    (hnodup : (curr.children.map fun c => c.startTime).Nodup)
    (hnonneg : ∀ c ∈ curr.children, 0 ≤ c.startTime.toInt) :
    YoungestChildCorrect cputimeToUsecs curr ↔
      ∀ c ∈ curr.children, ∀ d ∈ curr.children,
        (∀ e ∈ curr.children, c.startTime.toInt ≤ e.startTime.toInt) →
        (∀ e ∈ curr.children, e.startTime.toInt ≤ d.startTime.toInt) → c.pid = d.pid := by
  constructor
  · rintro ⟨-, hlast⟩ c hc d hd hoffirst hdlast
    rw [← hlast d hd hdlast, youngestChild_of_oldest hnodup hnonneg hc hoffirst]
  · intro h
    refine ⟨fun hnil => ?_, fun d hd hdlast => ?_⟩
    · rw [youngestChild_eq, hnil, Extreme.pass_nil]
    · obtain ⟨c, hc, hfirst⟩ := exists_oldest curr.children (List.ne_nil_of_mem hd)
      rw [youngestChild_of_oldest hnodup hnonneg hc hfirst, h c hc d hd hfirst hdlast]

section Example

/-- The process of the recorded run, with its child and a second one. -/
def firstChild : Process ℕ := ⟨⟨5849, 2523882477541⟩, 0, 0, by decide⟩

def secondChild : Process ℕ := ⟨⟨5850, 2523882845540⟩, 0, 0, by decide⟩

def parentOf (children : List (Process ℕ)) : Current ℕ where
  state := 0
  pid := 5848
  parentPid := 2742
  startTime := 2523879692613
  uid := 1000
  utime := 0
  stime := 0
  children := children
  following := []
  head := ⟨0, 0⟩
  preceding := []

theorem youngestChild_firstChild :
    YoungestChildCorrect (BitVec.ofNat 64) (parentOf [firstChild]) := by
  refine (youngestChildCorrect_iff (BitVec.ofNat 64) (parentOf [firstChild]) (by decide)
    (by decide)).mpr fun c hc d hd _ _ => ?_
  rw [List.mem_singleton.mp hc, List.mem_singleton.mp hd]

/-- Of two children the one that started first is reported. -/
theorem youngestChild_twoChildren :
    ¬ YoungestChildCorrect (BitVec.ofNat 64) (parentOf [firstChild, secondChild]) := by
  rintro ⟨-, hlast⟩
  have h := hlast secondChild (List.mem_cons_of_mem _ List.mem_cons_self) (by decide)
  exact absurd h (by decide)

end Example

end ProcessInfo

end OperatingSystems
