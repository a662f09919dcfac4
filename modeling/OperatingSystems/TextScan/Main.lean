import OperatingSystems.Life.Reader
import OperatingSystems.Output.Text
import OperatingSystems.Team.Ending
import OperatingSystems.TextScan.Buffered
import OperatingSystems.TextScan.Deviation
import OperatingSystems.TextScan.Schedule

/-!
# The program proj4

`main` chooses one of the three readers by its second argument, and writes three
lines about the file. The two readers with one thread report the true numbers,
whatever the size of the buffer; with several threads the number of strings may be
too small. The report does not depend on how the threads are scheduled.
-/

namespace OperatingSystems

namespace TextScan

open OperatingSystems.Run OperatingSystems.Thread OperatingSystems.Output

section Arguments

/-- A size of the buffer that `main` accepts. -/
structure BufferSize where
  val : ℕ
  pos : 1 ≤ val
  le : val ≤ 8192

/-- The reader that `main` calls. -/
inductive Mode where
  | regular (bufsize : BufferSize)
  | mapped
  | threads (numberOfThreads : ThreadCount)

/-- The choice of `BUFSIZE` and its check, which are made for all readers. A buffer of the
chosen size is on the stack and cleared before the check, so a size that the stack has no
room for ends the program before it can write this text. -/
def checkBufsize (bufSize : ℤ) (mode : BufferSize → Mode) : Except (List UInt8) Mode :=
  let size := if bufSize > 0 then bufSize else 1024
  if hlarge : size > 8192 then
    .error (ascii "buffer is too big. Max Buffer size allowed is 8192\n")
  else
    .ok (mode
      { val := size.toNat
        pos := by
          have hsize : 1 ≤ size := by
            simp only [size]
            split <;> omega
          omega
        le := by omega })

/-- The second argument, whose first byte tells the number of threads or the size
of the buffer from everything else. -/
def secondArgument (o1 : List UInt8) : Except (List UInt8) Mode :=
  if o1.head? = some 112 then
    let numberOfThreads := Life.atoi (o1.drop 1)
    if hpos : numberOfThreads ≤ 0 then
      .error (ascii "you need to specify 1 or more threads\n")
    else if hmax : numberOfThreads > 16 then
      .error (ascii "Too many threads. The maximum is 16\n")
    else
      checkBufsize (-1) fun _ => .threads
        { val := numberOfThreads.toNat
          pos := by omega
          le := by omega }
  else if (o1.head?.any Life.isDigit) = true then
    let bufSize := Life.atoi o1
    if bufSize ≤ 0 then .error (ascii "Buffer needs to be bigger than 0\n")
    else checkBufsize bufSize .regular
  else if o1 = ascii "mmap" then checkBufsize (-1) fun _ => .mapped
  else checkBufsize (-1) .regular

/-- The checks of `main`; `argv` includes the name of the program. -/
def mode (argv : List (List UInt8)) : Except (List UInt8) Mode :=
  if argv.length < 2 ∨ argv.length > 3 then
    .error (ascii "invalid input. ./proj4 <file> o1\n")
  else if argv.length = 3 then secondArgument (argv.getD 2 [])
  else checkBufsize (-1) .regular

end Arguments

section Program

/-- What a run has written to standard output, and its exit status. -/
structure Finish where
  output : List UInt8
  status : ℕ
  deriving DecidableEq, Repr

/-- The three lines about the file. -/
def reportText (fileSize numStrings maxLength : ℤ) : List UInt8 :=
  ascii "File size: " ++ decimal fileSize ++ ascii " bytes.\n" ++
    ascii "Strings of at least length 4: " ++ decimal numStrings ++ ascii "\n" ++
    ascii "Maximum string length: " ++ decimal maxLength ++ ascii " bytes\n"

/-- The end of `main`, unless the reader has called `exit(1)`. -/
def finish : Ending × Counters → Finish
  | (.returned size, r) => ⟨reportText size r.numStrings r.maxLength, 0⟩
  | (.exited, _) => ⟨[], 1⟩

/-- `main` on a file, where `reads` says what `read` delivers into a buffer. -/
def main (argv : List (List UInt8)) (file : File)
    (reads : ∀ bufsize : BufferSize, Reads bufsize.val file) : Finish :=
  match mode argv with
  | .error output => ⟨output, 1⟩
  | .ok (.regular bufsize) =>
      finish (regularRead isText bufsize.val (reads bufsize) Counters.start)
  | .ok .mapped => finish (mmapRegularRead isText file Counters.start)
  | .ok (.threads numberOfThreads) =>
      finish (mmapRead isText numberOfThreads file Counters.start)

/-- The number of threads that scan the file. -/
def Mode.workers : Mode → ℕ
  | .regular _ => 1
  | .mapped => 1
  | .threads numberOfThreads => numberOfThreads.val

end Program

section Report

variable {argv : List (List UInt8)} {file : File}
variable {reads : ∀ bufsize : BufferSize, Reads bufsize.val file}

section Example

/-- The calls of `read` on a regular file. -/
def regularReads (file : File) (bufsize : BufferSize) : Reads bufsize.val file :=
  fullReads bufsize.val bufsize.pos file

/-- `proj4 f p2`. -/
def twoWorkers : List (List UInt8) := [ascii "proj4", ascii "f", ascii "p2"]

end Example

end Report

section Threads

variable {argv : List (List UInt8)} {file : File}

/-- Where `main` starts threads, every schedule of them can be continued up to the
same number of steps. Then all have ended, all mailboxes are as they were at first,
and the report is made of what the parent has merged, so it is the same for all
schedules. -/
theorem main_of_schedule {numberOfThreads : ThreadCount}
    (hmode : mode argv = .ok (.threads numberOfThreads)) (hne : file.bytes ≠ [])
    (reads : ∀ bufsize : BufferSize, Reads bufsize.val file) (blank : Msg)
    {schedule : List Team.Member}
    {s : State (job isText numberOfThreads file Counters.start).program}
    (hrun : Transition.run next schedule
      ((job isText numberOfThreads file Counters.start).init blank) = some s) :
    schedule.length ≤ 16 * numberOfThreads.val + 2 ∧
      (schedule.length = 16 * numberOfThreads.val + 2 ↔ Transition.Stuck next s) ∧
      (Transition.Stuck next s → s.aborted = false ∧ Team.Ended s ∧
        ∃ totals, s.loc .parent = Team.ParentLoc.finished totals ∧
          main argv file reads =
            ⟨reportText file.size totals.numStrings totals.maxLength, 0⟩) := by
  have hreply := job_replies isText numberOfThreads file Counters.start
  have hs := Transition.Reachable.of_run schedule Relation.ReflTransGen.refl hrun
  obtain ⟨hle, hstuck, hended⟩ := Team.ended_iff_of_run hreply hrun
  refine ⟨hle, hstuck, fun h => ?_⟩
  have hend := hended.mp h
  obtain ⟨totals, hl⟩ := hend.parent
  have hacc : totals = _ := Team.outcome_own hreply rfl hs (by rw [hl]; rfl)
  refine ⟨(Team.not_failed hreply hs).1, hend, totals, hl, ?_⟩
  simp only [main, hmode, mmapRead_of_totals hne hacc]
  rfl

def eightLettersFile : File := ⟨eightLetters, by decide⟩

theorem main_of_schedule_eightLetters :
    ∃ s : State (job isText twoThreads eightLettersFile Counters.start).program,
      Transition.run next (eightLettersSchedule ++ [.parent, .parent])
        ((job isText twoThreads eightLettersFile Counters.start).init (rangeMessage 0 0)) =
          some s ∧
      Transition.Stuck next s ∧ Team.Ended s ∧
      ∃ totals, s.loc .parent = Team.ParentLoc.finished totals ∧
        main twoWorkers eightLettersFile (regularReads eightLettersFile) =
          ⟨reportText 8 totals.numStrings totals.maxLength, 0⟩ := by
  have hmode : mode twoWorkers = .ok (.threads twoThreads) := rfl
  have hne : eightLettersFile.bytes ≠ [] := by decide
  have hsome : (Transition.run next (eightLettersSchedule ++ [.parent, .parent])
      ((job isText twoThreads eightLettersFile Counters.start).init
        (rangeMessage 0 0))).isSome = true := rfl
  obtain ⟨s, hs⟩ := Option.isSome_iff_exists.mp hsome
  obtain ⟨-, hstuck, hend⟩ :=
    main_of_schedule hmode hne (regularReads eightLettersFile) (rangeMessage 0 0) hs
  have hall := hstuck.mp rfl
  exact ⟨s, hs, hall, (hend hall).2⟩

end Threads

end TextScan

end OperatingSystems
