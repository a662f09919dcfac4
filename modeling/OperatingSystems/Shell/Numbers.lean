import Mathlib.Data.List.Induction
import OperatingSystems.Shell.Table

/-!
# The numbers of the jobs

The number of a job is not stored. It is announced as the position that the job is
about to get in the vector, and printed later as the position that it has by then. As
long as only the last entry of the vector is erased, the two agree. When an entry is
erased that is not the last, every job behind it gets another number, and the next job
is announced under a number that may belong to a job already.
-/

namespace OperatingSystems

namespace Shell

open OperatingSystems

namespace Line

/-- The number in the brackets. -/
def number : Line → ℕ
  | launched number _ => number
  | listed number _ => number
  | completed number _ => number

def process : Line → Process
  | launched _ process => process
  | listed _ process => process
  | completed _ process => process

end Line

/-- What is asked of the numbers printed up to a state, with the listing that `jobs`
prints there. -/
structure Numbered (s : State) : Prop where
  announced : ∀ p ∈ s.processes, ∃ n, .launched n p ∈ s.output
  listed : ∀ n m p, .launched n p ∈ s.output → .listed m p ∈ s.printJobs.output → m = n
  completed : ∀ n m p, .launched n p ∈ s.output → .completed m p ∈ s.output → m = n
  unique : ∀ n p q, p ∈ s.processes → q ∈ s.processes → .launched n p ∈ s.output →
    .launched n q ∈ s.output → p = q

/-- A job is found to have finished that is not the last entry of the vector. -/
def ErasesInside (s : State) : Event → Prop
  | .poll =>
      ∃ i after p, s.pc = .scan (i + 1) after ∧ s.processes[i]? = some p ∧ s.Zombie p.pid ∧
        i + 1 < s.processes.length
  | _ => False

/-- A process has one number in all the lines, once it has been announced. -/
def SameNumber (output : List Line) : Prop :=
  ∀ n p, .launched n p ∈ output → ∀ line ∈ output, line.process = p → line.number = n

/-- Every entry of the vector has been announced under its position. -/
structure InPlace (s : State) : Prop where
  known : ∀ line ∈ s.output, line.process.pid ∈ s.forked ∧ s.pending ≠ some line.process.pid
  place : ∀ i p, s.processes[i]? = some p → .launched (i + 1) p ∈ s.output
  same : SameNumber s.output

/-- Lines that repeat the number of an announcement. -/
theorem SameNumber.append {output lines : List Line} (h : SameNumber output)
    (hlines : ∀ line ∈ lines, .launched line.number line.process ∈ output) :
    SameNumber (output ++ lines) := by
  intro n p hlaunched line hline hprocess
  have hmem : .launched n p ∈ output :=
    (List.mem_append.mp hlaunched).elim id fun hmem => hlines _ hmem
  rcases List.mem_append.mp hline with hline | hline
  · exact h n p hmem line hline hprocess
  · have hrepeats := hlines line hline
    rw [hprocess] at hrepeats
    exact h n p hmem (.launched line.number p) hrepeats rfl

/-- The announcement of a process that no line is about. -/
theorem SameNumber.launched {output : List Line} (h : SameNumber output) {n : ℕ} {p : Process}
    (hnew : ∀ line ∈ output, line.process ≠ p) :
    SameNumber (output ++ [.launched n p]) := by
  intro m q hlaunched line hline hprocess
  rcases List.mem_append.mp hlaunched with hlaunched | hlaunched
  · rcases List.mem_append.mp hline with hline | hline
    · exact h m q hlaunched line hline hprocess
    · obtain rfl := List.mem_singleton.mp hline
      exact absurd hprocess.symm (hnew _ hlaunched)
  · obtain ⟨rfl, rfl⟩ := Line.launched.inj (List.mem_singleton.mp hlaunched)
    rcases List.mem_append.mp hline with hline | hline
    · exact absurd hprocess (hnew line hline)
    · rw [List.mem_singleton.mp hline, Line.number]

theorem inPlace_start : InPlace start where
  known := fun _ h => absurd h List.not_mem_nil
  place := fun i p h => by
    rw [start, List.getElem?_nil] at h
    contradiction
  same := fun _ _ h => absurd h List.not_mem_nil

/-- The lines that `printJobs` adds. -/
theorem mem_printJobs {s : State} {line : Line} (h : line ∈ s.printJobs.output) :
    line ∈ s.output ∨ ∃ i p, s.processes[i]? = some p ∧ line = .listed (i + 1) p := by
  rcases List.mem_append.mp h with h | h
  · exact .inl h
  · obtain ⟨i, hi, rfl⟩ := List.mem_mapIdx.mp h
    exact .inr ⟨i, _, List.getElem?_eq_getElem hi, rfl⟩

namespace InPlace

variable {s s' : State}

/-- A step that neither prints nor changes the vector. -/
theorem congr (h : InPlace s) (houtput : s'.output = s.output)
    (hprocesses : s'.processes = s.processes) (hforked : s'.forked = s.forked)
    (hpending : ∀ pid, s'.pending = some pid → s.pending = some pid) : InPlace s' where
  known := fun line hline => by
    obtain ⟨hmem, hnot⟩ := h.known line (houtput ▸ hline)
    exact ⟨hforked ▸ hmem, fun heq => hnot (hpending _ heq)⟩
  place := fun i p hp => houtput ▸ h.place i p (hprocesses ▸ hp)
  same := houtput ▸ h.same

/-- A step that prints numbers that have been announced, and keeps the positions of
the entries that are left. -/
theorem print (h : InPlace s) {lines : List Line} (houtput : s'.output = s.output ++ lines)
    (hlines : ∀ line ∈ lines, .launched line.number line.process ∈ s.output)
    (hprocesses : ∀ (i : ℕ) (p : Process), s'.processes[i]? = some p → s.processes[i]? = some p)
    (hforked : s'.forked = s.forked) (hpending : s'.pending = s.pending) : InPlace s' where
  known := fun line hline => by
    rw [hforked, hpending]
    rw [houtput] at hline
    rcases List.mem_append.mp hline with hline | hline
    · exact h.known line hline
    · exact h.known (.launched line.number line.process) (hlines line hline)
  place := fun i p hp => by
    rw [houtput]
    exact List.mem_append_left _ (h.place i p (hprocesses i p hp))
  same := houtput ▸ h.same.append hlines

theorem launch (h : InPlace s) {pid : ℕ} {after : After} (hfresh : pid ∉ s.forked)
    (hpending : (s.launch pid after).pending = some pid) : InPlace (s.launch pid after) where
  known := fun line hline => by
    obtain ⟨hmem, -⟩ := h.known line hline
    refine ⟨List.mem_append_left _ hmem, fun heq => hfresh ?_⟩
    rw [Option.some.inj (hpending.symm.trans heq)]
    exact hmem
  place := h.place
  same := h.same

theorem printJobs (h : InPlace s) : InPlace s.printJobs := by
  refine h.print rfl ?_ (fun _ _ hp => hp) rfl rfl
  intro line hline
  obtain ⟨i, hi, rfl⟩ := List.mem_mapIdx.mp hline
  exact h.place i _ (List.getElem?_eq_getElem hi)

/-- The last entry is erased. -/
theorem check (h : InPlace s) {i : ℕ} {after : After} (hpc : s.pc = .scan (i + 1) after)
    (hlast : ¬ ErasesInside s .poll) :
    InPlace { s.checkProcess i with pc := .scan i after } := by
  have hafter : ∀ t : State, t.pc = .scan i after → t.pending = s.pending := by
    intro t ht
    simp only [State.pending, hpc, ht]
  rcases checkProcess_cases s i with heq | ⟨p, hp, hzombie, heq⟩
  · rw [heq]
    exact h.congr rfl rfl rfl fun pid hpid => (hafter _ rfl).symm.trans hpid
  · have hlen : s.processes.length ≤ i + 1 :=
      not_lt.mp fun hlt => hlast ⟨i, after, p, hpc, hp, hzombie, hlt⟩
    rw [heq]
    refine h.print rfl ?_ ?_ rfl (hafter _ rfl)
    · intro line hline
      obtain rfl := List.mem_singleton.mp hline
      exact h.place i p hp
    · intro j q hq
      have hj : j < i := by
        have hj := (List.getElem?_eq_some_iff.mp hq).1
        have hi := (List.getElem?_eq_some_iff.mp hp).1
        rw [State.complete, List.length_eraseIdx_of_lt hi] at hj
        omega
      exact (List.getElem?_eraseIdx_of_lt hj).symm.trans hq

/-- A new entry is announced under the position that it gets. -/
theorem background (h : InPlace s) {p : Process} (hpc : s.pc = .scan 0 (.background p))
    (hforked : p.pid ∈ s.forked) : InPlace (s.finish (.background p)) where
  known := fun line hline => by
    refine ⟨?_, fun heq => by contradiction⟩
    rcases List.mem_append.mp hline with hline | hline
    · exact (h.known line hline).1
    · rw [List.mem_singleton.mp hline]
      exact hforked
  place := fun i q hq => by
    rw [State.finish, List.getElem?_append] at hq
    split at hq
    · exact List.mem_append_left _ (h.place i q hq)
    · have hi := (List.getElem?_eq_some_iff.mp hq).1
      rw [List.length_singleton] at hi
      obtain rfl : i = s.processes.length := by omega
      rw [Nat.sub_self] at hq
      obtain rfl : p = q := Option.some.inj hq
      exact List.mem_append_right _ List.mem_cons_self
  same := by
    refine h.same.launched fun line hline heq => (h.known line hline).2 ?_
    rw [State.pending, hpc, heq]
    rfl

theorem move (h : InPlace s) (hwell : WellFormed s) {e : Event} (hmove : Move s e s')
    (hinside : ¬ ErasesInside s e) : InPlace s' := by
  cases hmove with
  | background pid name hpc hfresh => exact h.launch hfresh rfl
  | foreground pid hpc hfresh => exact h.launch hfresh rfl
  | jobs pid hpc => exact h.printJobs
  | cd pid hpc => exact h
  | exit pid hpc => exact h.congr rfl rfl rfl fun q hq => by contradiction
  | check i after hpc => exact h.check hpc hinside
  | finish after hpc =>
      cases after with
      | background p =>
          exact h.background hpc (hwell.pending p.pid (by rw [State.pending, hpc]; rfl)).1
      | foreground pid =>
          refine h.congr rfl rfl rfl fun q hq => ?_
          rw [State.pending, hpc]
          exact hq
      | exit =>
          unfold State.finish
          dsimp only
          split <;> exact h.congr rfl rfl rfl fun q hq => by contradiction
  | wait pid child hpc hzombie => exact h.congr rfl rfl rfl fun q hq => by contradiction
  | waitFails pid hpc hnone => exact h.congr rfl rfl rfl fun q hq => by contradiction
  | terminate child hforked hrunning => exact h.congr rfl rfl rfl fun q hq => hq

theorem numbered (h : InPlace s) : Numbered s where
  announced := fun p hp => by
    obtain ⟨i, hi⟩ := List.mem_iff_getElem?.mp hp
    exact ⟨i + 1, h.place i p hi⟩
  listed := fun n m p hlaunched hlisted => by
    rcases mem_printJobs hlisted with hlisted | ⟨i, q, hq, heq⟩
    · exact h.same n p hlaunched _ hlisted rfl
    · obtain ⟨rfl, rfl⟩ := Line.listed.inj heq
      exact h.same n p hlaunched _ (h.place i p hq) rfl
  completed := fun n m p hlaunched hcompleted => h.same n p hlaunched _ hcompleted rfl
  unique := fun n p q hp hq hlaunchedp hlaunchedq => by
    obtain ⟨i, hi⟩ := List.mem_iff_getElem?.mp hp
    obtain ⟨j, hj⟩ := List.mem_iff_getElem?.mp hq
    have hni : i + 1 = n := h.same n p hlaunchedp _ (h.place i p hi) rfl
    have hnj : j + 1 = n := h.same n q hlaunchedq _ (h.place j q hj) rfl
    obtain rfl : i = j := Nat.succ.inj (hni.trans hnj.symm)
    exact Option.some.inj (hi.symm.trans hj)

end InPlace

/-- In every run in which only the last entry is erased, the positions are the numbers
that have been announced. -/
theorem inPlace_of_run {ts : List Event} {s : State}
    (hrun : Transition.run next ts start = some s)
    (hinside : ∀ us e s', us ++ [e] <+: ts → Transition.run next us start = some s' →
      ¬ ErasesInside s' e) : InPlace s := by
  induction ts using List.reverseRecOn generalizing s with
  | nil =>
      obtain rfl := Option.some.inj hrun
      exact inPlace_start
  | append_singleton ts e ih =>
      obtain ⟨a, ha, hnext⟩ := Transition.run_concat_eq_some.mp hrun
      have hplace := ih ha fun us e' s' hus =>
        hinside us e' s' (hus.trans (List.prefix_append _ _))
      exact hplace.move (WellFormed.of_run ha) (next_eq_some_iff.mp hnext)
        (hinside ts e a (List.prefix_refl _) ha)

/-- A number that has been announced is the position of its job. -/
theorem Numbered.number_eq {s : State} (h : Numbered s) {i n : ℕ} {p : Process}
    (hp : s.processes[i]? = some p) (hlaunched : .launched n p ∈ s.output) : n = i + 1 := by
  refine (h.listed n (i + 1) p hlaunched ?_).symm
  obtain ⟨hi, rfl⟩ := List.getElem?_eq_some_iff.mp hp
  exact List.mem_append_right _ (List.mem_mapIdx.mpr ⟨i, hi, rfl⟩)

/-- The job behind an entry that is erased has another position afterwards. -/
theorem Numbered.not_erasesInside {s : State} (h : Numbered s)
    (h' : ∀ s', Move s .poll s' → Numbered s') : ¬ ErasesInside s .poll := by
  rintro ⟨i, after, p, hpc, hp, hzombie, hlt⟩
  have h' := h' _ (Move.check i after hpc)
  rw [checkProcess_of_zombie hp hzombie] at h'
  have hbehind : s.processes[i + 1]? = some (s.processes.get ⟨i + 1, hlt⟩) :=
    List.getElem?_eq_getElem hlt
  set q := s.processes.get ⟨i + 1, hlt⟩
  obtain ⟨n, hn⟩ := h.announced q (List.mem_of_getElem? hbehind)
  have hbefore : n = i + 1 + 1 := h.number_eq hbehind hn
  have hafter : n = i + 1 := by
    refine h'.number_eq (p := q) ?_ (List.mem_append_left _ hn)
    exact (List.getElem?_eraseIdx_of_ge (le_refl i)).trans hbehind
  omega

/-- The numbers of the jobs are right in every state of a run exactly when only the last
entry of the vector is erased in it. -/
theorem numbered_iff (ts : List Event) :
    (∀ us s, us <+: ts → Transition.run next us start = some s → Numbered s) ↔
      ∀ us e s, us ++ [e] <+: ts → Transition.run next us start = some s →
        ¬ ErasesInside s e := by
  constructor
  · intro h us e s hus hrun
    cases e with
    | poll =>
        refine (h us s ((List.prefix_append _ _).trans hus) hrun).not_erasesInside ?_
        intro s' hmove
        exact h _ s' hus (Transition.run_concat_eq_some.mpr ⟨s, hrun, next_eq_some_iff.mpr hmove⟩)
    | _ => exact not_false
  · intro h us s hus hrun
    exact (inPlace_of_run hrun fun vs e a hvs => h vs e a (hvs.trans hus)).numbered

/-- The first of two background jobs ends, a third is started, and the jobs are listed. -/
def shiftedRun : List Event :=
  [.enter (.background "sleep 10") 1, .poll, .enter (.background "sleep 20") 2, .poll, .poll,
    .terminate 1, .enter (.background "sleep 30") 3, .poll, .poll, .poll, .enter .jobs 0]

/-- The second and the third job are both announced as `[2]`, and the second is listed
as `[1]`. -/
theorem not_numbered_shiftedRun :
    ∃ s, Transition.run next shiftedRun start = some s ∧
      s.processes = [⟨2, "sleep 20"⟩, ⟨3, "sleep 30"⟩] ∧
      s.output = [.launched 1 ⟨1, "sleep 10"⟩, .launched 2 ⟨2, "sleep 20"⟩,
        .completed 1 ⟨1, "sleep 10"⟩, .launched 2 ⟨3, "sleep 30"⟩,
        .listed 1 ⟨2, "sleep 20"⟩, .listed 2 ⟨3, "sleep 30"⟩] ∧ ¬ Numbered s := by
  refine ⟨_, rfl, rfl, rfl, fun h => ?_⟩
  have hsame := h.listed 2 1 ⟨2, "sleep 20"⟩ (by decide) (by decide)
  contradiction

end Shell

end OperatingSystems
