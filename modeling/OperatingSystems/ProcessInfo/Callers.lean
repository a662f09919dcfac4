import Mathlib.Logic.Function.Basic
import OperatingSystems.ProcessInfo.Children
import OperatingSystems.Transition.Reachable

/-!
# The programs that call it

`test` and `testnull` consist of a process, its child and the child of that child. Each
asks for its information and prints it; the last one sleeps before, and in `testnull`
passes `NULL`, so that its structure stays as `malloc` has returned it. Both parents wait
for their child before they exit. With the output in a file, what a process prints is
written when it exits. So in every order of the steps the file begins with the last
process, and the numbers in the three reports fit together.

The processes have no other children, and the child and its child no siblings. The
pointer that the child passes to `waitpid` is not initialized, and taken not to matter.
-/

namespace OperatingSystems

namespace ProcessInfo

namespace Callers

open OperatingSystems

/-- The three processes. -/
inductive Role where
  | parent
  | child
  | grandchild
  deriving DecidableEq, Repr

/-- What `fork` gives a process. -/
structure Task where
  pid : ℤ
  startTime : BitVec 64
  pid_pos : 0 < pid
  startTime_nonneg : 0 ≤ startTime.toInt

/-- Where a process is in `main`, before it is forked and after it has been waited for
included. -/
inductive Pc where
  | unborn
  | fork
  | call
  | print
  | wait
  | exit
  | exited
  | reaped
  deriving DecidableEq, Repr

/-- A process, with its copy of the structure and what it has printed into its buffer. -/
structure Proc where
  pc : Pc
  task : Task
  pinfo : Info
  stdout : List String

structure State where
  proc : Role → Proc
  file : List String

/-- The rest of what the kernel knows when it is asked. `C` is `cputime_t`. -/
structure Moment (C : Type) where
  state : ℤ
  uid : ℕ
  utime : C
  stime : C
  childUtime : C
  childStime : C
  following : List (Process C)
  head : Node
  preceding : List (Process C)

/-- Where the program is run: who its parent is, what `malloc` returns, and whether it is
`testnull`. -/
structure Setting (C : Type) where
  cputimeToUsecs : C → BitVec 64
  shell : ℤ
  task : Task
  pinfo : Info
  null : Bool

/-- The child of a process. -/
def Role.forks : Role → Option Role
  | .parent => some .child
  | .child => some .grandchild
  | .grandchild => none

/-- The first argument of `print_info`. -/
def Role.description : Role → String
  | .parent => "Parent Process begin"
  | .child => "Child process"
  | .grandchild => "child of child process"

/-- Where a child goes on after `fork`. -/
def Role.first : Role → Pc
  | .grandchild => .call
  | _ => .fork

/-- Where a process goes on after `print_info`. -/
def Role.printed : Role → Pc
  | .grandchild => .exit
  | _ => .wait

/-- `print_info`. -/
def printInfo (description : String) (pinfo : Info) : List String :=
  ["--------------------------------------------",
    "Description of operation: " ++ description,
    "state: " ++ toString pinfo.state,
    "pid: " ++ toString pinfo.pid,
    "parent_pid: " ++ toString pinfo.parentPid,
    "youngest_child: " ++ toString pinfo.youngestChild,
    "younger_sibling: " ++ toString pinfo.youngerSibling,
    "older_sibling: " ++ toString pinfo.olderSibling,
    "start time: " ++ toString pinfo.startTime.toInt,
    "user time: " ++ toString pinfo.userTime.toInt,
    "sys time: " ++ toString pinfo.sysTime.toInt,
    "cutime: " ++ toString pinfo.cutime.toInt,
    "cstime: " ++ toString pinfo.cstime.toInt,
    "--------------------------------------------",
    ""]

section Code

variable {C : Type} (S : Setting C)

/-- At the first `fork`. -/
def begin : State where
  proc := fun who =>
    { pc := if who = .parent then .fork else .unborn
      task := S.task
      pinfo := S.pinfo
      stdout := [] }
  file := []

namespace State

variable (s : State) (who : Role)

def set (p : Proc) : State := { s with proc := Function.update s.proc who p }

/-- `curr_info->parent->pid`. -/
def parentPid : Role → ℤ
  | .parent => S.shell
  | .child => (s.proc .parent).task.pid
  | .grandchild => (s.proc .child).task.pid

/-- A process in the list of its parent. -/
def process (moment : Moment C) : Process C where
  pid := (s.proc who).task.pid
  startTime := (s.proc who).task.startTime
  utime := moment.childUtime
  stime := moment.childStime
  pid_pos := (s.proc who).task.pid_pos

/-- The children of a process that have not been waited for. -/
def children (moment : Moment C) : List (Process C) :=
  match who.forks with
  | none => []
  | some r =>
      if (s.proc r).pc = .unborn ∨ (s.proc r).pc = .reaped then [] else [s.process r moment]

/-- The process that calls, as the kernel has it. -/
def current (moment : Moment C) : Current C where
  state := moment.state
  pid := (s.proc who).task.pid
  parentPid := s.parentPid S who
  startTime := (s.proc who).task.startTime
  uid := moment.uid
  utime := moment.utime
  stime := moment.stime
  children := s.children who moment
  following := if who = .parent then moment.following else []
  head := moment.head
  preceding := if who = .parent then moment.preceding else []

/-- `fork`, with everything copied. -/
def fork (r : Role) (task : Task) : State :=
  (s.set who { s.proc who with pc := .call }).set r
    { s.proc who with pc := r.first, task := task }

/-- `test_call`. `copy_to_user` fails for `NULL`. -/
def call (moment : Moment C) : State :=
  let curr := s.current S who moment
  let copied := curr.newSysCs3013Syscall2 S.cputimeToUsecs (!(S.null && who = .grandchild))
  s.set who { s.proc who with pc := .print, pinfo := copied.2.getD (s.proc who).pinfo }

def print : State :=
  s.set who { s.proc who with
    pc := who.printed
    stdout := (s.proc who).stdout ++ printInfo who.description (s.proc who).pinfo }

/-- `waitpid`. -/
def wait (r : Role) : State :=
  (s.set who { s.proc who with pc := .exit }).set r { s.proc r with pc := .reaped }

/-- The end of `main`, where the buffer is written. -/
def exit : State :=
  { s.set who { s.proc who with pc := .exited } with file := s.file ++ (s.proc who).stdout }

end State

inductive Event (C : Type) where
  | fork (who : Role) (task : Task)
  | call (who : Role) (moment : Moment C)
  | print (who : Role)
  | wait (who : Role)
  | exit (who : Role)

/-- The step of a process that an event stands for. -/
def next : Event C → State → Option State
  | .fork who task, s =>
      match who.forks with
      | some r => if (s.proc who).pc = .fork then some (s.fork who r task) else none
      | none => none
  | .call who moment, s =>
      if (s.proc who).pc = .call then some (s.call S who moment) else none
  | .print who, s => if (s.proc who).pc = .print then some (s.print who) else none
  | .wait who, s =>
      match who.forks with
      | some r =>
          if (s.proc who).pc = .wait ∧ (s.proc r).pc = .exited then some (s.wait who r) else none
      | none => none
  | .exit who, s => if (s.proc who).pc = .exit then some (s.exit who) else none

/-- The steps, one constructor for each kind. -/
inductive Move (s : State) : State → Prop
  | fork (who r : Role) (task : Task) (hforks : who.forks = some r)
      (hpc : (s.proc who).pc = .fork) : Move s (s.fork who r task)
  | call (who : Role) (moment : Moment C) (hpc : (s.proc who).pc = .call) :
      Move s (s.call S who moment)
  | print (who : Role) (hpc : (s.proc who).pc = .print) : Move s (s.print who)
  | wait (who r : Role) (hforks : who.forks = some r) (hpc : (s.proc who).pc = .wait)
      (hexited : (s.proc r).pc = .exited) : Move s (s.wait who r)
  | exit (who : Role) (hpc : (s.proc who).pc = .exit) : Move s (s.exit who)

variable {S}

theorem move_of_next {e : Event C} {s s' : State} (hnext : next S e s = some s') :
    Move S s s' := by
  cases e with
  | fork who task =>
      simp only [next] at hnext
      split at hnext
      · rename_i r hforks
        obtain ⟨hpc, heq⟩ := Option.ite_none_right_eq_some.mp hnext
        exact Option.some.inj heq ▸ .fork who r task hforks hpc
      · contradiction
  | call who moment =>
      obtain ⟨hpc, heq⟩ := Option.ite_none_right_eq_some.mp hnext
      exact Option.some.inj heq ▸ .call who moment hpc
  | print who =>
      obtain ⟨hpc, heq⟩ := Option.ite_none_right_eq_some.mp hnext
      exact Option.some.inj heq ▸ .print who hpc
  | wait who =>
      simp only [next] at hnext
      split at hnext
      · rename_i r hforks
        obtain ⟨⟨hpc, hexited⟩, heq⟩ := Option.ite_none_right_eq_some.mp hnext
        exact Option.some.inj heq ▸ .wait who r hforks hpc hexited
      · contradiction
  | exit who =>
      obtain ⟨hpc, heq⟩ := Option.ite_none_right_eq_some.mp hnext
      exact Option.some.inj heq ▸ .exit who hpc

end Code

/-- How far a process is. -/
def Pc.rank : Pc → ℕ
  | .unborn => 0
  | .fork => 1
  | .call => 2
  | .print => 3
  | .wait => 4
  | .exit => 5
  | .exited => 6
  | .reaped => 7

theorem Pc.rank_le (p : Pc) : p.rank ≤ 7 := by cases p <;> decide

namespace State

variable (s : State) (who r : Role)

def rank : ℕ := (s.proc who).pc.rank

/-- What a process prints. -/
def block : List String := printInfo who.description (s.proc who).pinfo

/-- What a process has written to the file. -/
def written : List String := if 6 ≤ s.rank who then s.block who else []

variable {s who r}

@[simp] theorem proc_set_self (p : Proc) : (s.set who p).proc who = p :=
  Function.update_self _ _ _

@[simp] theorem proc_set_of_ne (p : Proc) (h : r ≠ who) : (s.set who p).proc r = s.proc r :=
  Function.update_of_ne h _ _

theorem rank_set (s : State) (who : Role) (p : Proc) :
    (s.set who p).rank = Function.update s.rank who p.pc.rank := by
  funext r
  by_cases h : r = who
  · rw [h, rank, proc_set_self, Function.update_self]
  · rw [rank, proc_set_of_ne p h, Function.update_of_ne h, rank]

theorem rank_fork (s : State) (who r : Role) (task : Task) :
    (s.fork who r task).rank = Function.update (Function.update s.rank who 2) r r.first.rank := by
  rw [fork, rank_set, rank_set]
  rfl

theorem rank_call {C : Type} (S : Setting C) (s : State) (who : Role) (moment : Moment C) :
    (s.call S who moment).rank = Function.update s.rank who 3 :=
  rank_set s who _

theorem rank_print (s : State) (who : Role) :
    (s.print who).rank = Function.update s.rank who who.printed.rank :=
  rank_set s who _

theorem rank_exit (s : State) (who : Role) :
    (s.exit who).rank = Function.update s.rank who 6 :=
  rank_set s who { s.proc who with pc := .exited }

theorem rank_wait (s : State) (who r : Role) :
    (s.wait who r).rank = Function.update (Function.update s.rank who 5) r 7 := by
  rw [wait, rank_set, rank_set]
  rfl

theorem written_congr {s' : State} (hrank : 6 ≤ s'.rank who ↔ 6 ≤ s.rank who)
    (hpinfo : 6 ≤ s.rank who → (s'.proc who).pinfo = (s.proc who).pinfo) :
    s'.written who = s.written who := by
  by_cases h : 6 ≤ s.rank who
  · rw [written, written, if_pos h, if_pos (hrank.mpr h), block, block, hpinfo h]
  · rw [written, written, if_neg h, if_neg fun h' => h (hrank.mp h')]

end State

/-- The parents wait for their children. -/
structure Ordered (rank : Role → ℕ) : Prop where
  parent : 1 ≤ rank .parent ∧ rank .parent ≤ 6
  child : (rank .child = 0 ↔ rank .parent = 1) ∧ (rank .child = 7 ↔ 5 ≤ rank .parent)
  grandchild : (rank .grandchild = 0 ↔ rank .child ≤ 1) ∧
    (rank .grandchild = 7 ↔ 5 ≤ rank .child) ∧ rank .grandchild ≠ 1 ∧ rank .grandchild ≠ 4

namespace Ordered

variable {rank : Role → ℕ} {who : Role}

theorem call (h : Ordered rank) (hrank : rank who = 2) :
    Ordered (Function.update rank who 3) := by
  obtain ⟨hparent, hchild, hgrandchild⟩ := h
  cases who <;> refine ⟨?_, ?_, ?_⟩ <;> simp <;> omega

theorem print (h : Ordered rank) (hrank : rank who = 3) :
    Ordered (Function.update rank who who.printed.rank) := by
  obtain ⟨hparent, hchild, hgrandchild⟩ := h
  cases who <;> refine ⟨?_, ?_, ?_⟩ <;> simp [Role.printed, Pc.rank] <;> omega

theorem exit (h : Ordered rank) (hrank : rank who = 5) :
    Ordered (Function.update rank who 6) := by
  obtain ⟨hparent, hchild, hgrandchild⟩ := h
  cases who <;> refine ⟨?_, ?_, ?_⟩ <;> simp <;> omega

theorem fork (h : Ordered rank) {r : Role} (hforks : who.forks = some r) (hrank : rank who = 1) :
    Ordered (Function.update (Function.update rank who 2) r r.first.rank) := by
  obtain ⟨hparent, hchild, hgrandchild⟩ := h
  cases who <;> cases hforks <;> refine ⟨?_, ?_, ?_⟩ <;> simp [Role.first, Pc.rank] <;> omega

theorem wait (h : Ordered rank) {r : Role} (hforks : who.forks = some r) (hrank : rank who = 4)
    (hexited : rank r = 6) : Ordered (Function.update (Function.update rank who 5) r 7) := by
  obtain ⟨hparent, hchild, hgrandchild⟩ := h
  cases who <;> cases hforks <;> refine ⟨?_, ?_, ?_⟩ <;> simp <;> omega

end Ordered

/-- What `test_call` leaves in the structure. -/
def Told {C : Type} (S : Setting C) (s : State) (who : Role) (pinfo : Info) : Prop :=
  if S.null ∧ who = .grandchild then pinfo = S.pinfo
  else
    pinfo.pid = (s.proc who).task.pid ∧ pinfo.parentPid = s.parentPid S who ∧
      pinfo.youngestChild = (who.forks.map fun r => (s.proc r).task.pid).getD (-1)

/-- What holds in every state of a run. -/
structure Inv {C : Type} (S : Setting C) (s : State) : Prop where
  ordered : Ordered s.rank
  task : (s.proc .parent).task = S.task
  stdout : ∀ who, (s.proc who).stdout = if s.rank who ≤ 3 then [] else s.block who
  pinfo : ∀ who, s.rank who ≤ 2 → (s.proc who).pinfo = S.pinfo
  told : ∀ who, 3 ≤ s.rank who → Told S s who (s.proc who).pinfo
  file : s.file = s.written .grandchild ++ s.written .child ++ s.written .parent

/-- A process is on the same side of every test of the invariant, with what it knows and
has printed. -/
structure SameSide (s s' : State) (who : Role) : Prop where
  call : s'.rank who ≤ 2 ↔ s.rank who ≤ 2
  print : s'.rank who ≤ 3 ↔ s.rank who ≤ 3
  exit : 6 ≤ s'.rank who ↔ 6 ≤ s.rank who
  pinfo : (s'.proc who).pinfo = (s.proc who).pinfo
  stdout : (s'.proc who).stdout = (s.proc who).stdout

/-- A process that comes no further than to its call. -/
structure Starting {C : Type} (S : Setting C) (s s' : State) (who : Role) : Prop where
  before : s.rank who ≤ 2
  after : s'.rank who ≤ 2
  pinfo : (s'.proc who).pinfo = S.pinfo
  stdout : (s'.proc who).stdout = []

section Steps

variable {C : Type} {S : Setting C} {s s' : State} {who r : Role}

theorem inv_begin (S : Setting C) : Inv S (begin S) where
  ordered := by constructor <;> simp [State.rank, begin, Pc.rank]
  task := rfl
  stdout := fun who => by cases who <;> rfl
  pinfo := fun _ _ => rfl
  told := fun who h => by cases who <;> simp [State.rank, begin, Pc.rank] at h
  file := rfl

theorem SameSide.of_proc (h : s'.proc who = s.proc who) : SameSide s s' who := by
  have hrank : s'.rank who = s.rank who := by rw [State.rank, h, State.rank]
  constructor <;> simp [hrank, h]

theorem Told.congr {pinfo : Info} (h : Told S s who pinfo)
    (htask : ∀ r, (s'.proc r).task = (s.proc r).task) : Told S s' who pinfo := by
  have hparent : s'.parentPid S who = s.parentPid S who := by
    cases who <;> simp only [State.parentPid, htask]
  simpa only [Told, htask, hparent] using h

namespace Inv

/-- A step of one process that is not `fork` or `waitpid`. -/
theorem set (h : Inv S s) {p : Proc} {file : List String} (htask : p.task = (s.proc who).task)
    (hordered : Ordered (Function.update s.rank who p.pc.rank))
    (hstdout : p.stdout = if p.pc.rank ≤ 3 then [] else printInfo who.description p.pinfo)
    (hpinfo : p.pc.rank ≤ 2 → p.pinfo = S.pinfo)
    (htold : 3 ≤ p.pc.rank → Told S s who p.pinfo)
    (hfile : file = (s.set who p).written .grandchild ++ (s.set who p).written .child ++
      (s.set who p).written .parent) : Inv S { s.set who p with file := file } := by
  have htasks : ∀ r, ((s.set who p).proc r).task = (s.proc r).task := by
    intro r
    by_cases hr : r = who
    · rw [hr, State.proc_set_self, htask]
    · rw [State.proc_set_of_ne p hr]
  have hself : (s.set who p).rank who = p.pc.rank := by
    rw [State.rank_set, Function.update_self]
  have hother : ∀ r, r ≠ who → (s.set who p).rank r = s.rank r := fun r hr => by
    rw [State.rank_set, Function.update_of_ne hr]
  refine ⟨?_, (htasks _).trans h.task, fun r => ?_, fun r hr => ?_, fun r hr => ?_, hfile⟩
  · exact State.rank_set s who p ▸ hordered
  · change ((s.set who p).proc r).stdout = if (s.set who p).rank r ≤ 3 then []
      else printInfo r.description ((s.set who p).proc r).pinfo
    by_cases heq : r = who
    · rw [heq, hself, State.proc_set_self, hstdout]
    · rw [hother r heq, State.proc_set_of_ne p heq, h.stdout r, State.block]
  · change ((s.set who p).proc r).pinfo = S.pinfo
    change (s.set who p).rank r ≤ 2 at hr
    by_cases heq : r = who
    · rw [heq, hself] at hr
      rw [heq, State.proc_set_self, hpinfo hr]
    · rw [hother r heq] at hr
      rw [State.proc_set_of_ne p heq, h.pinfo r hr]
  · change Told S (s.set who p) r ((s.set who p).proc r).pinfo
    change 3 ≤ (s.set who p).rank r at hr
    by_cases heq : r = who
    · rw [heq, hself] at hr
      rw [heq, State.proc_set_self]
      exact (htold hr).congr htasks
    · rw [hother r heq] at hr
      rw [State.proc_set_of_ne p heq]
      exact (h.told r hr).congr htasks

/-- Before a process exits, its step leaves the file alone. -/
theorem set_of_lt (h : Inv S s) {p : Proc} (htask : p.task = (s.proc who).task)
    (hordered : Ordered (Function.update s.rank who p.pc.rank))
    (hstdout : p.stdout = if p.pc.rank ≤ 3 then [] else printInfo who.description p.pinfo)
    (hpinfo : p.pc.rank ≤ 2 → p.pinfo = S.pinfo)
    (htold : 3 ≤ p.pc.rank → Told S s who p.pinfo)
    (hrank : s.rank who < 6) (hrank' : p.pc.rank < 6) : Inv S (s.set who p) := by
  have hwritten : ∀ r, (s.set who p).written r = s.written r := by
    intro r
    by_cases heq : r = who
    · subst heq
      have hself : (s.set r p).rank r = p.pc.rank := by rw [State.rank_set, Function.update_self]
      refine State.written_congr (by omega) fun hr => by omega
    · refine State.written_congr ?_ fun _ => by rw [State.proc_set_of_ne p heq]
      rw [State.rank_set, Function.update_of_ne heq]
  have hfile : s.file = (s.set who p).written .grandchild ++ (s.set who p).written .child ++
      (s.set who p).written .parent := by
    rw [h.file, hwritten, hwritten, hwritten]
  exact h.set htask hordered hstdout hpinfo htold hfile

/-- The child of a process that makes its call is there. -/
theorem forked (h : Inv S s) (hforks : who.forks = some r) (hrank : s.rank who = 2) :
    (s.proc r).pc ≠ .unborn ∧ (s.proc r).pc ≠ .reaped := by
  have hne : s.rank r ≠ 0 ∧ s.rank r ≠ 7 := by
    obtain ⟨hparent, hchild, hgrandchild⟩ := h.ordered
    cases who <;> cases hforks <;> omega
  exact ⟨fun hpc => hne.1 (by rw [State.rank, hpc, Pc.rank]),
    fun hpc => hne.2 (by rw [State.rank, hpc, Pc.rank])⟩

theorem youngestChild_current (h : Inv S s) (hrank : s.rank who = 2) (moment : Moment C) :
    ((s.current S who moment).pinfo S.cputimeToUsecs).youngestChild =
      (who.forks.map fun r => (s.proc r).task.pid).getD (-1) := by
  cases hforks : who.forks with
  | none =>
      have hnil : (s.current S who moment).children = [] := by
        rw [State.current, State.children, hforks]
      rw [youngestChild_eq, hnil, Extreme.pass_nil]
      rfl
  | some r =>
      obtain ⟨hunborn, hreaped⟩ := h.forked hforks hrank
      have hchildren : (s.current S who moment).children = [s.process r moment] := by
        rw [State.current, State.children, hforks]
        exact if_neg (not_or.mpr ⟨hunborn, hreaped⟩)
      have honly : ∀ d ∈ (s.current S who moment).children, d = s.process r moment :=
        fun d hd => List.mem_singleton.mp (hchildren ▸ hd)
      have hmem : s.process r moment ∈ (s.current S who moment).children :=
        hchildren ▸ List.mem_cons_self
      have hnodup : ((s.current S who moment).children.map fun c => c.startTime).Nodup := by
        rw [hchildren]
        exact List.nodup_singleton _
      exact youngestChild_of_oldest hnodup
        (fun d hd => honly d hd ▸ (s.proc r).task.startTime_nonneg) hmem
        fun d hd => honly d hd ▸ le_refl _

theorem call (h : Inv S s) (hpc : (s.proc who).pc = .call) (moment : Moment C) :
    Inv S (s.call S who moment) := by
  have hrank : s.rank who = 2 := by rw [State.rank, hpc, Pc.rank]
  have hprint : Pc.print.rank = 3 := rfl
  refine h.set_of_lt rfl (h.ordered.call hrank) ?_ (fun hle => ?_) (fun _ => ?_) (by omega) ?_
  · exact (h.stdout who).trans ((if_pos (by omega)).trans (if_pos hprint.le).symm)
  · have hle : Pc.print.rank ≤ 2 := hle
    omega
  · by_cases hnull : S.null ∧ who = .grandchild
    · have hcopied : (!(S.null && decide (who = .grandchild))) = false := by
        rw [hnull.1, hnull.2]
        rfl
      rw [Told, if_pos hnull, hcopied]
      exact h.pinfo who hrank.le
    · have hcopied : (!(S.null && decide (who = .grandchild))) = true := by
        rw [Bool.not_eq_true', ← Bool.not_eq_true, Bool.and_eq_true, decide_eq_true_iff]
        exact hnull
      rw [Told, if_neg hnull, hcopied]
      exact ⟨rfl, rfl, h.youngestChild_current hrank moment⟩
  · exact hprint.trans_lt (by decide)

theorem print (h : Inv S s) (hpc : (s.proc who).pc = .print) : Inv S (s.print who) := by
  have hrank : s.rank who = 3 := by rw [State.rank, hpc, Pc.rank]
  have hprinted : 4 ≤ who.printed.rank ∧ who.printed.rank < 6 := by cases who <;> decide
  refine h.set_of_lt rfl (h.ordered.print hrank) ?_ (fun hle => ?_) (fun _ => ?_) ?_ hprinted.2
  · have hempty : (s.proc who).stdout = [] := (h.stdout who).trans (if_pos (by omega))
    dsimp only
    rw [hempty, List.nil_append, if_neg (by omega)]
  · dsimp only at hle
    omega
  · exact h.told who (by omega)
  · omega

theorem exit (h : Inv S s) (hpc : (s.proc who).pc = .exit) : Inv S (s.exit who) := by
  have hrank : s.rank who = 5 := by rw [State.rank, hpc, Pc.rank]
  have hexited : Pc.exited.rank = 6 := rfl
  have hblock : (s.proc who).stdout = s.block who := (h.stdout who).trans (if_neg (by omega))
  refine h.set rfl (h.ordered.exit hrank) ?_ (fun hle => ?_) (fun _ => ?_) ?_
  · exact hblock.trans (if_neg (by rw [hexited]; decide)).symm
  · have hle : Pc.exited.rank ≤ 2 := hle
    omega
  · exact h.told who (by omega)
  · have hself : (s.set who { s.proc who with pc := .exited }).written who = s.block who := by
      rw [State.written, State.rank_set, Function.update_self, if_pos hexited.ge, State.block,
        State.proc_set_self, State.block]
    have hother : ∀ r, r ≠ who →
        (s.set who { s.proc who with pc := .exited }).written r = s.written r := by
      intro r hr
      refine State.written_congr ?_ fun _ => by rw [State.proc_set_of_ne _ hr]
      rw [State.rank_set, Function.update_of_ne hr]
    have hnone : ∀ r, s.rank r < 6 → s.written r = [] := fun r hr => if_neg (by omega)
    obtain ⟨hparent, hchild, hgrandchild⟩ := h.ordered
    rw [h.file, hblock]
    cases who with
    | parent =>
        rw [hself, hother _ (by decide), hother _ (by decide), hnone .parent (by omega),
          List.append_nil]
    | child =>
        rw [hself, hother _ (by decide), hother _ (by decide), hnone .child (by omega),
          hnone .parent (by omega)]
        simp
    | grandchild =>
        rw [hself, hother _ (by decide), hother _ (by decide), hnone .grandchild (by omega),
          hnone .child (by omega), hnone .parent (by omega)]
        simp

theorem rank_of_fork (h : Inv S s) (hforks : who.forks = some r) (hrank : s.rank who = 1) :
    r ≠ who ∧ s.rank r = 0 := by
  obtain ⟨hparent, hchild, hgrandchild⟩ := h.ordered
  cases who <;> cases hforks <;> exact ⟨by decide, by omega⟩

/-- Where a process forks, only its parent can have come to its call. -/
theorem eq_of_fork (h : Inv S s) (hforks : who.forks = some r) (hrank : s.rank who = 1)
    {x : Role} (hx : 3 ≤ s.rank x) : x = .parent ∧ r = .grandchild := by
  obtain ⟨hparent, hchild, hgrandchild⟩ := h.ordered
  cases who <;> cases hforks <;> cases x <;> first | exact ⟨rfl, rfl⟩ | omega

/-- A step of two processes, none of which calls, prints or exits in it. -/
theorem of_sides (h : Inv S s) (hordered : Ordered s'.rank)
    (htask : (s'.proc .parent).task = S.task) (hfile : s'.file = s.file)
    (hsides : ∀ x, SameSide s s' x ∨ Starting S s s' x)
    (htold : ∀ x, 3 ≤ s.rank x → Told S s x (s.proc x).pinfo → Told S s' x (s.proc x).pinfo) :
    Inv S s' := by
  have hwritten : ∀ x, s'.written x = s.written x := by
    intro x
    rcases hsides x with hx | ⟨hbefore, hafter, -, -⟩
    · exact State.written_congr hx.exit fun _ => hx.pinfo
    · exact State.written_congr (by omega) fun _ => by omega
  refine ⟨hordered, htask, fun x => ?_, fun x hle => ?_, fun x hle => ?_, ?_⟩
  · rcases hsides x with hx | ⟨-, hafter, -, hstdout⟩
    · rw [hx.stdout, h.stdout x, State.block, State.block, hx.pinfo]
      exact if_congr hx.print.symm rfl rfl
    · rw [hstdout, if_pos (by omega)]
  · rcases hsides x with hx | hx
    · exact hx.pinfo.trans (h.pinfo x (hx.call.mp hle))
    · exact hx.pinfo
  · rcases hsides x with ⟨hcall, -, -, hpinfo, -⟩ | ⟨-, hafter, -, -⟩
    · have hbefore : 3 ≤ s.rank x := by omega
      rw [hpinfo]
      exact htold x hbefore (h.told x hbefore)
    · omega
  · rw [hfile, hwritten, hwritten, hwritten]
    exact h.file

theorem fork (h : Inv S s) (hforks : who.forks = some r) (hpc : (s.proc who).pc = .fork)
    (task : Task) : Inv S (s.fork who r task) := by
  have hrank : s.rank who = 1 := by rw [State.rank, hpc, Pc.rank]
  have hstdout : (s.proc who).stdout = [] := (h.stdout who).trans (if_pos (by omega))
  have hpinfo : (s.proc who).pinfo = S.pinfo := h.pinfo who (by omega)
  have hrank' : s.rank r = 0 := (h.rank_of_fork hforks hrank).2
  have hfirst : r.first.rank ≤ 2 := by cases r <;> decide
  have hranks := s.rank_fork who r task
  have hother : ∀ x, x ≠ r → ((s.fork who r task).proc x).task = (s.proc x).task := by
    intro x hr
    rw [State.fork, State.proc_set_of_ne _ hr]
    by_cases hw : x = who
    · rw [hw, State.proc_set_self]
    · rw [State.proc_set_of_ne _ hw]
  have hparent : Role.parent ≠ r := by cases who <;> cases hforks <;> decide
  refine h.of_sides (hranks ▸ h.ordered.fork hforks hrank) ((hother _ hparent).trans h.task) rfl
    (fun x => ?_) fun x hx htold => ?_
  · by_cases hr : x = r
    · refine .inr ⟨hr ▸ hrank'.le.trans (Nat.zero_le _), ?_, ?_, ?_⟩
      · rw [hranks, hr, Function.update_self]
        exact hfirst
      · rw [hr, State.fork, State.proc_set_self]
        exact hpinfo
      · rw [hr, State.fork, State.proc_set_self]
        exact hstdout
    · by_cases hw : x = who
      · refine .inr ⟨hw ▸ hrank.le.trans (Nat.le_succ 1), ?_, ?_, ?_⟩
        · rw [hranks, Function.update_of_ne hr, hw, Function.update_self]
        · rw [State.fork, State.proc_set_of_ne _ hr, hw, State.proc_set_self]
          exact hpinfo
        · rw [State.fork, State.proc_set_of_ne _ hr, hw, State.proc_set_self]
          exact hstdout
      · have hsame : (s.fork who r task).proc x = s.proc x := by
          rw [State.fork, State.proc_set_of_ne _ hr, State.proc_set_of_ne _ hw]
        exact .inl (.of_proc hsame)
  · obtain ⟨rfl, rfl⟩ := h.eq_of_fork hforks hrank hx
    simpa only [Told, State.parentPid, Role.forks, Option.map_some, hother .parent (by decide),
      hother .child (by decide)] using htold

/-- `waitpid` changes nothing but where the two processes are. -/
theorem wait (h : Inv S s) (hforks : who.forks = some r) (hpc : (s.proc who).pc = .wait)
    (hexited : (s.proc r).pc = .exited) : Inv S (s.wait who r) := by
  have hrank : s.rank who = 4 := by rw [State.rank, hpc, Pc.rank]
  have hrank' : s.rank r = 6 := by rw [State.rank, hexited, Pc.rank]
  have hranks := s.rank_wait who r
  have hsame : ∀ x, ((s.wait who r).proc x).task = (s.proc x).task ∧
      SameSide s (s.wait who r) x := by
    intro x
    by_cases hr : x = r
    · have hproc : (s.wait who r).proc x = { s.proc x with pc := .reaped } := by
        rw [hr, State.wait, State.proc_set_self]
      have hreaped : (s.wait who r).rank x = 7 := by rw [State.rank, hproc, Pc.rank]
      rw [← hr] at hrank'
      exact ⟨by rw [hproc], by omega, by omega, by omega, by rw [hproc], by rw [hproc]⟩
    · by_cases hw : x = who
      · have hproc : (s.wait who r).proc x = { s.proc x with pc := .exit } := by
          rw [State.wait, State.proc_set_of_ne _ hr, hw, State.proc_set_self]
        have hexit : (s.wait who r).rank x = 5 := by rw [State.rank, hproc, Pc.rank]
        rw [← hw] at hrank
        exact ⟨by rw [hproc], by omega, by omega, by omega, by rw [hproc], by rw [hproc]⟩
      · have hproc : (s.wait who r).proc x = s.proc x := by
          rw [State.wait, State.proc_set_of_ne _ hr, State.proc_set_of_ne _ hw]
        exact ⟨by rw [hproc], .of_proc hproc⟩
  exact h.of_sides (hranks ▸ h.ordered.wait hforks hrank hrank')
    ((hsame _).1.trans h.task) rfl (fun x => .inl (hsame x).2)
    fun x _ htold => htold.congr fun y => (hsame y).1

theorem move (h : Inv S s) (hmove : Move S s s') : Inv S s' := by
  cases hmove with
  | fork who r task hforks hpc => exact h.fork hforks hpc task
  | call who moment hpc => exact h.call hpc moment
  | print who hpc => exact h.print hpc
  | wait who r hforks hpc hexited => exact h.wait hforks hpc hexited
  | exit who hpc => exact h.exit hpc

theorem of_reachable (hs : Transition.Reachable (next S) (begin S) s) : Inv S s :=
  hs.invariant (inv_begin S) fun _ _ _ _ h hnext => h.move (move_of_next hnext)

end Inv

/-- The control points that the processes can still pass. -/
def remaining (rank : Role → ℕ) : ℕ :=
  (7 - rank .parent) + (7 - rank .child) + (7 - rank .grandchild)

theorem remaining_update_lt {rank : Role → ℕ} {m n : ℕ} (hrank : rank who = m) (hlt : m < n)
    (hle : n ≤ 7) : remaining (Function.update rank who n) < remaining rank := by
  unfold remaining
  cases who <;> simp <;> omega

theorem remaining_lt_of_move (h : Inv S s) (hmove : Move S s s') :
    remaining s'.rank < remaining s.rank := by
  cases hmove with
  | fork who r task hforks hpc =>
      have hwho : s.rank who = 1 := by rw [State.rank, hpc, Pc.rank]
      obtain ⟨hne, hzero⟩ := h.rank_of_fork hforks hwho
      have hfirst : 0 < r.first.rank ∧ r.first.rank ≤ 7 := by cases r <;> decide
      rw [State.rank_fork]
      refine (remaining_update_lt ?_ hfirst.1 hfirst.2).trans
        (remaining_update_lt hwho (by decide) (by decide))
      rw [Function.update_of_ne hne, hzero]
  | call who moment hpc =>
      have hwho : s.rank who = 2 := by rw [State.rank, hpc, Pc.rank]
      rw [State.rank_call]
      exact remaining_update_lt hwho (by decide) (by decide)
  | print who hpc =>
      have hwho : s.rank who = 3 := by rw [State.rank, hpc, Pc.rank]
      have hprinted : 3 < who.printed.rank ∧ who.printed.rank ≤ 7 := by cases who <;> decide
      rw [State.rank_print]
      exact remaining_update_lt hwho hprinted.1 hprinted.2
  | wait who r hforks hpc hexited =>
      have hwho : s.rank who = 4 := by rw [State.rank, hpc, Pc.rank]
      have hr : s.rank r = 6 := by rw [State.rank, hexited, Pc.rank]
      have hne : r ≠ who := fun heq => by
        rw [heq, hwho] at hr
        contradiction
      rw [State.rank_wait]
      refine (remaining_update_lt ?_ (by decide : 6 < 7) (by decide)).trans
        (remaining_update_lt hwho (by decide) (by decide))
      rw [Function.update_of_ne hne, hr]
  | exit who hpc =>
      have hwho : s.rank who = 5 := by rw [State.rank, hpc, Pc.rank]
      rw [State.rank_exit]
      exact remaining_update_lt hwho (by decide) (by decide)

theorem pc_eq_of_rank {p q : Pc} (h : p.rank = q.rank) : p = q := by
  cases p <;> cases q <;> first | rfl | contradiction

/-- No process is left behind: where no step is left, the parent has exited. -/
theorem exited_of_stuck [Inhabited C] (h : Inv S s)
    (hstuck : Transition.Stuck (next S) s) : (s.proc .parent).pc = .exited := by
  have hpc : ∀ who (p : Pc), s.rank who = p.rank → (s.proc who).pc = p := fun who p =>
    pc_eq_of_rank
  have hfork : ∀ who r, who.forks = some r → s.rank who ≠ 1 := by
    intro who r hforks hrank
    have hnone := hstuck (.fork who S.task)
    simp only [next, hforks, hpc who .fork hrank, if_true] at hnone
    contradiction
  have hwait : ∀ who r, who.forks = some r → s.rank who = 4 → s.rank r ≠ 6 := by
    intro who r hforks hrank hexited
    have hnone := hstuck (.wait who)
    simp only [next, hforks, hpc who .wait hrank, hpc r .exited hexited, and_self,
      if_true] at hnone
    contradiction
  have hidle : ∀ who, s.rank who ≠ 2 ∧ s.rank who ≠ 3 ∧ s.rank who ≠ 5 := by
    refine fun who => ⟨fun hrank => ?_, fun hrank => ?_, fun hrank => ?_⟩
    · have hnone := hstuck (.call who ⟨0, 0, default, default, default, default, [], ⟨0, 0⟩, []⟩)
      simp only [next, hpc who .call hrank, if_true] at hnone
      contradiction
    · have hnone := hstuck (.print who)
      simp only [next, hpc who .print hrank, if_true] at hnone
      contradiction
    · have hnone := hstuck (.exit who)
      simp only [next, hpc who .exit hrank, if_true] at hnone
      contradiction
  obtain ⟨hparent, hchild, hgrandchild⟩ := h.ordered
  have hle : s.rank .child ≤ 7 ∧ s.rank .grandchild ≤ 7 := ⟨Pc.rank_le _, Pc.rank_le _⟩
  have hforks := And.intro (hfork .parent .child rfl) (hfork .child .grandchild rfl)
  have hwaits := And.intro (hwait .parent .child rfl) (hwait .child .grandchild rfl)
  have hparent' := hidle .parent
  have hchild' := hidle .child
  have hgrandchild' := hidle .grandchild
  refine hpc .parent .exited ?_
  change s.rank .parent = 6
  omega

end Steps

/-- The three reports fit together: they are those of a process, its child and the child
of that, and in `testnull` the last one is what `malloc` has returned. -/
structure Fits {C : Type} (S : Setting C) (parent child grandchild : Info) : Prop where
  pid : parent.pid = S.task.pid
  shell : parent.parentPid = S.shell
  down : parent.youngestChild = child.pid
  up : child.parentPid = parent.pid
  pos : 0 < child.youngestChild
  told : S.null = false → child.youngestChild = grandchild.pid ∧
    grandchild.parentPid = child.pid ∧ grandchild.youngestChild = -1
  untold : S.null = true → grandchild = S.pinfo

theorem Inv.fits {C : Type} {S : Setting C} {s : State} (h : Inv S s)
    (hpc : (s.proc .parent).pc = .exited) :
    s.file = s.block .grandchild ++ s.block .child ++ s.block .parent ∧
      Fits S (s.proc .parent).pinfo (s.proc .child).pinfo (s.proc .grandchild).pinfo := by
  have hparent : s.rank .parent = 6 := by rw [State.rank, hpc, Pc.rank]
  have hranks : s.rank .child = 7 ∧ s.rank .grandchild = 7 := by
    obtain ⟨-, hchild, hgrandchild⟩ := h.ordered
    omega
  have hp := h.told .parent (by omega)
  have hc := h.told .child (by omega)
  have hg := h.told .grandchild (by omega)
  rw [Told, if_neg (fun hand => by simp at hand)] at hp hc
  obtain ⟨hpid, hshell, hpyoungest⟩ := hp
  obtain ⟨hcpid, hcparent, hcyoungest⟩ := hc
  refine ⟨?_, ?_⟩
  · rw [h.file, State.written, State.written, State.written, if_pos (by omega),
      if_pos (by omega), if_pos (by omega)]
  · refine ⟨by rw [hpid, h.task], hshell, hpyoungest.trans hcpid.symm, hcparent.trans hpid.symm,
      ?_, fun hnull => ?_, fun hnull => ?_⟩
    · rw [hcyoungest]
      exact (s.proc .grandchild).task.pid_pos
    · rw [Told, if_neg (fun hand => by simp [hnull] at hand)] at hg
      exact ⟨hcyoungest.trans hg.1.symm, hg.2.1.trans hcpid.symm, hg.2.2⟩
    · rwa [Told, if_pos ⟨hnull, rfl⟩] at hg

/-- In every order of the steps the file holds the three reports when the parent has
exited, the last process first, and they fit together. Whatever has happened, the
processes can go on until the parent exits. -/
theorem reports_of_run {C : Type} [Inhabited C] {S : Setting C} {ts : List (Event C)}
    {s : State} (hrun : Transition.run (next S) ts (begin S) = some s) :
    ((s.proc .parent).pc = .exited → ∃ parent child grandchild : Info,
      s.file = printInfo "child of child process" grandchild ++
        printInfo "Child process" child ++ printInfo "Parent Process begin" parent ∧
      Fits S parent child grandchild) ∧
    ∃ us s', Transition.run (next S) (ts ++ us) (begin S) = some s' ∧
      (s'.proc .parent).pc = .exited := by
  have hreach := Transition.Reachable.of_run ts Relation.ReflTransGen.refl hrun
  refine ⟨fun hpc => ⟨_, _, _, (Inv.of_reachable hreach).fits hpc⟩, ?_⟩
  obtain ⟨us, s', hrun', hstuck⟩ := Transition.exists_run_stuck (fun s => remaining s.rank) ts
    hrun fun _ _ _ ha hnext => remaining_lt_of_move (Inv.of_reachable ha) (move_of_next hnext)
  have hreach' := Transition.Reachable.of_run (ts ++ us) Relation.ReflTransGen.refl hrun'
  exact ⟨us, s', hrun', exited_of_stuck (Inv.of_reachable hreach') hstuck⟩

section Example

/-- The structure filled with zeros. -/
def zeroInfo : Info := ⟨0, 0, 0, 0, 0, 0, 0, 0, 0, 0, 0, 0⟩

/-- The recorded run of `test`. -/
def recorded : Setting ℕ where
  cputimeToUsecs := BitVec.ofNat 64
  shell := 2742
  task := ⟨5848, 2523879692613, by decide, by decide⟩
  pinfo := zeroInfo
  null := false

def idle : Moment ℕ := ⟨0, 1000, 0, 0, 0, 0, [], ⟨0, 0⟩, []⟩

def recordedRun : List (Event ℕ) :=
  [.fork .parent ⟨5849, 2523882477541, by decide, by decide⟩, .call .parent idle, .print .parent,
    .fork .child ⟨5850, 2523882845540, by decide, by decide⟩, .call .child idle, .print .child,
    .call .grandchild idle, .print .grandchild, .exit .grandchild, .wait .child, .exit .child,
    .wait .parent, .exit .parent]

theorem reports_of_run_recorded :
    ∃ s, Transition.run (next recorded) recordedRun (begin recorded) = some s ∧
      (s.proc .grandchild).pinfo.pid = 5850 ∧
      ∃ parent child grandchild : Info,
        s.file = printInfo "child of child process" grandchild ++
          printInfo "Child process" child ++ printInfo "Parent Process begin" parent ∧
        Fits recorded parent child grandchild := by
  have hrun : Transition.run (next recorded) recordedRun (begin recorded) = some _ := rfl
  exact ⟨_, hrun, rfl, (reports_of_run hrun).1 rfl⟩

end Example

end Callers

end ProcessInfo

end OperatingSystems
