import OperatingSystems.Addem.Overflow
import OperatingSystems.Life.Reader
import OperatingSystems.Output.Text
import OperatingSystems.Team.Ending

/-!
# The program addem

`main` checks its two arguments, creates the workers and in the end writes one
line. What it has written in a state of the threads is `written`; a message that
is not of type `ALLDONE` would be reported as well, and there is none. Every
schedule of the threads has at most a fixed number of steps, and those of that
number are the complete runs.
-/

namespace OperatingSystems

namespace Addem

open OperatingSystems.Thread OperatingSystems.Output

section Code

/-- What `main` comes to before it creates the threads. -/
inductive Start where
  | rejected (output : List UInt8)
  | accepted (numberOfThreads : ThreadCount) (maxValue : ℤ)

/-- `main` up to the creation of the threads; `argv` includes the name of the
program. -/
def start (argv : List (List UInt8)) : Start :=
  if argv.length ≠ 3 then
    .rejected (ascii "invalid input - 2 arguments must be given\n")
  else
    let numberOfThreads := Life.atoi (argv.getD 1 [])
    if hpos : numberOfThreads ≤ 0 then
      .rejected (ascii "you need to specify 1 or more threads\n")
    else if hmax : numberOfThreads > 10 then
      .rejected (ascii "Too many threads. The maximum is 10\n")
    else
      .accepted
        { val := numberOfThreads.toNat
          pos := by omega
          le := by omega }
        (Life.atoi (argv.getD 2 []))

variable (numberOfThreads : ThreadCount) (maxValue : ℤ)

/-- The line with the total. -/
def totalLine (fullSum : ℤ) : List UInt8 :=
  ascii "The total for 1 to " ++ decimal maxValue ++ ascii " using " ++
    decimal numberOfThreads.val ++ ascii " threads is " ++ decimal fullSum ++ ascii ".\n"

/-- What the loop over the replies writes about a message. -/
def reportMessage (message : Msg) : List UInt8 :=
  if message.type ≠ .alldone then ascii "messages sent back improperly\n" else []

variable {numberOfThreads maxValue}

/-- What `main` has written: first about the messages that it has received, and
after the loop the total. -/
def written (s : State (job numberOfThreads maxValue).program) : List UInt8 :=
  (s.returned 0).flatMap reportMessage ++
    match (show Team.ParentLoc ℤ from s.loc .parent) with
    | .joinLast _ fullSum => totalLine numberOfThreads maxValue fullSum
    | .finished fullSum => totalLine numberOfThreads maxValue fullSum
    | _ => []

end Code

section Runs

variable {numberOfThreads : ThreadCount} {maxValue : ℤ} {blank : Msg}
variable {s : State (job numberOfThreads maxValue).program}

/-- No message is reported. -/
theorem flatMap_reportMessage
    (hs : Transition.Reachable next ((job numberOfThreads maxValue).init blank) s) :
    (s.returned 0).flatMap reportMessage = [] := by
  obtain ⟨order, -, hreceived⟩ :=
    Team.received_shared (job_replies numberOfThreads maxValue) rfl hs
  refine List.flatMap_eq_nil_iff.mpr fun m hm => ?_
  have hmem : m ∈ received s 0 := List.mem_append_left _ hm
  rw [hreceived] at hmem
  obtain ⟨i, -, rfl⟩ := List.mem_map.mp hmem
  rfl

/-- What is written is nothing, or the line with the sum of the numbers from 1. -/
theorem written_of_reachable
    (hs : Transition.Reachable next ((job numberOfThreads maxValue).init blank) s) :
    written s = [] ∨ written s = totalLine numberOfThreads maxValue (total 1 maxValue) := by
  have htotal : ∀ fullSum, Team.ParentLoc.outcome? (s.loc .parent) = some fullSum →
      fullSum = total 1 maxValue := by
    intro fullSum hacc
    obtain ⟨order, hperm, -, hsum⟩ :=
      Team.outcome_shared (job_replies numberOfThreads maxValue) rfl hs hacc
    exact hsum.trans (foldl_replies hperm)
  unfold written
  rw [flatMap_reportMessage hs, List.nil_append]
  cases hl : (show Team.ParentLoc ℤ from s.loc .parent) with
  | joinLast i fullSum =>
      have hacc : Team.ParentLoc.outcome? (s.loc .parent) = some fullSum := congrArg _ hl
      rw [htotal fullSum hacc]
      exact .inr rfl
  | finished fullSum =>
      have hacc : Team.ParentLoc.outcome? (s.loc .parent) = some fullSum := congrArg _ hl
      rw [htotal fullSum hacc]
      exact .inr rfl
  | _ => exact .inl rfl

/-- At the end the line is written. -/
theorem written_of_ended
    (hs : Transition.Reachable next ((job numberOfThreads maxValue).init blank) s)
    (hended : Team.Ended s) :
    written s = totalLine numberOfThreads maxValue (total 1 maxValue) := by
  refine (written_of_reachable hs).resolve_left fun hnil => ?_
  obtain ⟨fullSum, hl⟩ := hended.parent
  unfold written at hnil
  rw [hl] at hnil
  have hline := (List.append_eq_nil_iff.mp hnil).2
  simp [totalLine, ascii] at hline

/-- Whatever arguments `main` accepts with a number of at most 65535, and however
the threads are scheduled: what is written at any time is nothing or the one line
with the right total, which fits an `int`. A schedule can be continued until every
thread has taken all its steps; then the line is written, all threads have ended,
and all mailboxes are as they were at first. -/
theorem written_of_schedule {argv : List (List UInt8)} (hstart : start argv =
    .accepted numberOfThreads maxValue) (hmax : maxValue ≤ 65535) (blank : Msg)
    {schedule : List Team.Member}
    (hrun : Transition.run next schedule ((job numberOfThreads maxValue).init blank) = some s) :
    (numberOfThreads.val = Life.atoi (argv.getD 1 []) ∧ maxValue = Life.atoi (argv.getD 2 [])) ∧
      IsInt (∑ i ∈ Finset.Icc 1 maxValue, i) ∧
      (written s = [] ∨
        written s = totalLine numberOfThreads maxValue (∑ i ∈ Finset.Icc 1 maxValue, i)) ∧
      schedule.length ≤ 16 * numberOfThreads.val + 2 ∧
      (schedule.length = 16 * numberOfThreads.val + 2 ↔ Transition.Stuck next s) ∧
      (Transition.Stuck next s →
        written s = totalLine numberOfThreads maxValue (∑ i ∈ Finset.Icc 1 maxValue, i) ∧
          s.aborted = false ∧ Team.Ended s) := by
  have hreply := job_replies numberOfThreads maxValue
  have hs := Transition.Reachable.of_run schedule Relation.ReflTransGen.refl hrun
  obtain ⟨hle, hstuck, hended⟩ := Team.ended_iff_of_run hreply hrun
  refine ⟨?_, ?_, written_of_reachable hs, hle, hstuck, fun h => ?_⟩
  · unfold start at hstart
    split at hstart
    · contradiction
    · dsimp only at hstart
      split at hstart
      · contradiction
      · split at hstart
        · contradiction
        · rename_i hpos hlarge
          obtain ⟨rfl, rfl⟩ := Start.accepted.inj hstart
          exact ⟨Int.toNat_of_nonneg (by omega), rfl⟩
  · have hhigh : total 1 maxValue ≤ 2147450880 := total_le_of_le hmax
    have hlow : 0 ≤ total 1 maxValue := total_nonneg zero_le_one maxValue
    exact isInt_iff.mpr ⟨by unfold total at hlow; omega, by unfold total at hhigh; omega⟩
  · have hended := hended.mp h
    exact ⟨written_of_ended hs hended, (Team.not_failed hreply hs).1, hended⟩

/-- `addem 2 3`. -/
def twoThree : List (List UInt8) := [ascii "addem", ascii "2", ascii "3"]

/-- The run of two workers to its end. -/
def fullSchedule : List Team.Member :=
  lateFirstSchedule ++ [.worker 1] ++ List.replicate 4 .parent

theorem written_of_schedule_twoThree :
    ∃ s : State (job twoThreads 3).program,
      Transition.run next fullSchedule ((job twoThreads 3).init (rangeMessage 0 0)) = some s ∧
      Transition.Stuck next s ∧
      written s = totalLine twoThreads 3 (∑ i ∈ Finset.Icc 1 3, i) ∧ Team.Ended s := by
  have hstart : start twoThree = .accepted twoThreads 3 := rfl
  have hsome : (Transition.run next fullSchedule
      ((job twoThreads 3).init (rangeMessage 0 0))).isSome = true := rfl
  obtain ⟨s, hs⟩ := Option.isSome_iff_exists.mp hsome
  obtain ⟨-, -, -, -, hstuck, hend⟩ :=
    written_of_schedule hstart (by decide) (rangeMessage 0 0) hs
  have hall := hstuck.mp rfl
  exact ⟨s, hs, hall, (hend hall).1, (hend hall).2.2⟩

end Runs

end Addem

end OperatingSystems
