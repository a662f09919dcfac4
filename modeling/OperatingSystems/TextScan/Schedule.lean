import OperatingSystems.Team.Results
import OperatingSystems.TextScan.FileSize

/-!
# The threads of mmap_read

`mmap_read` and its workers are a team whose replies come back through the
workers' own mailboxes: a mailbox carries a `RANGE` message one way and then an
`ALLDONE` message the other way, and the parent joins all workers in between. In
every run worker `i` takes the `RANGE` message, the parent takes the `ALLDONE`
message, and the merge loop leaves what `mmapRead` says.

The workers only read the mapped bytes, so the scan of a range is one step.
-/

namespace OperatingSystems

namespace TextScan

open OperatingSystems.Thread

/-- The part of a file that `mmap` maps, as many bytes as its size in an `int`.
Where that is not a positive number no thread is created. -/
def File.mapped (contents : List UInt8) : File where
  bytes := contents.take (toInt contents.length).toNat
  size_lt := by
    have hlt := toInt_lt contents.length
    rw [List.length_take]
    omega

/-- Of a file of fewer than `2 ^ 31` bytes all is mapped. -/
theorem mapped_bytes (file : File) : File.mapped file.bytes = file := by
  have hsize := file.size_lt
  have hint : (toInt file.bytes.length).toNat = file.bytes.length := by
    by_cases hzero : file.bytes.length = 0
    · rw [hzero]
      rfl
    · rw [toInt_of_lt (by omega) (by omega), Int.toNat_natCast]
  cases file
  simp only [File.mapped, hint, List.take_length]

section Team

variable (text : UInt8 → Bool) (numberOfThreads : ThreadCount) (file : File) (r : Counters)

/-- The message for worker `i`. -/
def request (i : ℕ) : Msg :=
  (requests numberOfThreads file.size).getD (i - 1) (rangeMessage 0 0)

/-- The answer of worker `i`. -/
def reply (i : ℕ) : Msg :=
  answer text (request numberOfThreads file i) ((request numberOfThreads file i).bytes file.bytes)

/-- `mmap_read` from the creation of the threads on, and `sumthread`. -/
def job : Team.Job Msg Totals where
  size := numberOfThreads.val
  one_le_size := numberOfThreads.pos
  request := request numberOfThreads file
  work := sumthread text file.bytes
  own := true
  absorb := mergeMessage
  start := Totals.start r

end Team

section Runs

variable {text : UInt8 → Bool} {numberOfThreads : ThreadCount} {file : File} {r : Counters}
variable {i : ℕ}

theorem length_requests (fileSize : ℤ) :
    (requests numberOfThreads fileSize).length = numberOfThreads.val := by
  have hpos := numberOfThreads.pos
  simp only [requests, List.length_append, List.length_map, List.length_range,
    List.length_singleton]
  omega

theorem request_mem (hi : 1 ≤ i) (hin : i ≤ numberOfThreads.val) :
    request numberOfThreads file i ∈ requests numberOfThreads file.size := by
  have hlt : i - 1 < (requests numberOfThreads file.size).length := by
    rw [length_requests]
    omega
  have hget : request numberOfThreads file i = (requests numberOfThreads file.size)[i - 1] := by
    simp [request, hlt]
  rw [hget]
  exact List.getElem_mem hlt

/-- Every worker answers its message. -/
theorem sumthread_request (hi : 1 ≤ i) (hin : i ≤ numberOfThreads.val) :
    sumthread text file.bytes (request numberOfThreads file i) =
      some (reply text numberOfThreads file i) :=
  sumthread_eq (type_of_mem_requests (request_mem hi hin)) file.bytes

theorem job_replies (text : UInt8 → Bool) (numberOfThreads : ThreadCount) (file : File)
    (r : Counters) :
    (job text numberOfThreads file r).Replies (reply text numberOfThreads file) :=
  fun _ hi hin => sumthread_request hi hin

/-- The answers in the order of the workers are those to the messages. -/
theorem map_reply :
    (List.range' 1 numberOfThreads.val).map (reply text numberOfThreads file) =
      (requests numberOfThreads file.size).map
        fun message => answer text message (message.bytes file.bytes) := by
  apply List.ext_getElem
  · rw [List.length_map, List.length_map, List.length_range', length_requests]
  · intro k hk hk'
    rw [List.length_map] at hk'
    simp [reply, request, hk']

/-- What the merge loop makes of all answers. -/
theorem mmapRead_of_totals (hne : file.bytes ≠ []) {totals : Totals}
    (h : totals = ((List.range' 1 numberOfThreads.val).map
      (reply text numberOfThreads file)).foldl mergeMessage (Totals.start r)) :
    mmapRead text numberOfThreads file r =
      (.returned file.size,
        { r with numStrings := totals.numStrings, maxLength := totals.maxLength }) := by
  rw [map_reply] at h
  rw [mmapRead, if_neg hne, mapM_sumthread file.bytes fun m hm => type_of_mem_requests hm, h]

end Runs

/-- In every run of `mmap_read` on any file the parent never waits for ever, no
worker calls `exit(1)`, each worker takes its `RANGE` message out of its mailbox
and the parent then takes the `ALLDONE` message of this worker out of it. After
the merge loop `num_strings` and `max_length` are those of `mmapRead`. -/
theorem mmapRead_of_schedule (text : UInt8 → Bool) (numberOfThreads : ThreadCount)
    (contents : List UInt8) (r : Counters) (blank : Msg)
    {s : State (job text numberOfThreads (File.mapped contents) r).program}
    (hs : Transition.Reachable next
      ((job text numberOfThreads (File.mapped contents) r).init blank) s) :
    (s.status .parent = .running → ¬ Transition.Stuck next s) ∧
      (s.aborted = false ∧
        ∀ i, 1 ≤ i → i ≤ numberOfThreads.val → s.loc (.worker i) ≠ Team.WorkerLoc.failed) ∧
      (∀ i m, 1 ≤ i → i ≤ numberOfThreads.val → s.loc (.worker i) = Team.WorkerLoc.receive →
        s.phase (.worker i) = .copied m →
          m = request numberOfThreads (File.mapped contents) i ∧ m.type = .range) ∧
      (∀ i totals m, s.loc .parent = Team.ParentLoc.gather i totals →
        s.phase .parent = .copied m →
          (1 ≤ i ∧ i ≤ numberOfThreads.val) ∧
          s.returned i = [request numberOfThreads (File.mapped contents) i] ∧
          sumthread text (File.mapped contents).bytes
            (request numberOfThreads (File.mapped contents) i) = some m ∧
          m.type = .alldone) ∧
      ∀ totals, Team.ParentLoc.outcome? (s.loc .parent) = some totals →
        (File.mapped contents).bytes ≠ [] →
          mmapRead text numberOfThreads (File.mapped contents) r =
            (.returned (File.mapped contents).size,
              { r with numStrings := totals.numStrings, maxLength := totals.maxLength }) := by
  have hreply := job_replies text numberOfThreads (File.mapped contents) r
  refine ⟨fun hrun hstuck => ?_, Team.not_failed hreply hs, fun i m hi hin hl hp => ?_,
    fun i totals m hl hp => ?_, fun totals hacc hne => ?_⟩
  · have hexited := Team.exited_of_stuck hreply hs hstuck
    rw [hrun] at hexited
    contradiction
  · have heq := Team.eq_request_of_copied hreply hs hi hin hl hp
    refine ⟨heq, ?_⟩
    rw [heq]
    exact type_of_mem_requests (request_mem hi hin)
  · obtain ⟨⟨hi, hin⟩, hreturned, rfl⟩ := Team.eq_reply_of_copied hreply rfl hs hl hp
    exact ⟨⟨hi, hin⟩, hreturned, sumthread_request hi hin, rfl⟩
  · exact mmapRead_of_totals hne (Team.outcome_own hreply rfl hs hacc)

/-- The text `abcdefgh`. -/
def eightLetters : List UInt8 := [97, 98, 99, 100, 101, 102, 103, 104]

/-- A run of two workers on eight letters, up to the end of the merge loop. -/
def eightLettersSchedule : List Team.Member :=
  List.replicate 5 .parent ++ List.replicate 5 (.worker 1) ++ List.replicate 3 .parent ++
    List.replicate 8 (.worker 2) ++ List.replicate 3 (.worker 1) ++ List.replicate 8 .parent

theorem mmapRead_of_schedule_eightLetters :
    ∃ s : State (job isText twoThreads (File.mapped eightLetters) Counters.start).program,
      Transition.run next eightLettersSchedule
        ((job isText twoThreads (File.mapped eightLetters) Counters.start).init
          (rangeMessage 0 0)) = some s ∧
      s.loc .parent = Team.ParentLoc.report (⟨1, 8, 8, 4⟩ : Totals) ∧
      mmapRead isText twoThreads (File.mapped eightLetters) Counters.start =
        (.returned 8, ⟨0, 1, 8⟩) := by
  have hrun : (Transition.run next eightLettersSchedule
      ((job isText twoThreads (File.mapped eightLetters) Counters.start).init
        (rangeMessage 0 0))).map (fun s => s.loc .parent) =
          some (Team.ParentLoc.report ⟨1, 8, 8, 4⟩) := rfl
  obtain ⟨s, hs, hreach, hl⟩ := Transition.exists_of_run_map hrun
  obtain ⟨-, -, -, -, htotals⟩ := mmapRead_of_schedule isText twoThreads eightLetters
    Counters.start (rangeMessage 0 0) hreach
  exact ⟨s, hs, hl, htotals ⟨1, 8, 8, 4⟩ (by rw [hl]; rfl) (by decide)⟩

end TextScan

end OperatingSystems
