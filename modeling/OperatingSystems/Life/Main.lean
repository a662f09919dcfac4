import OperatingSystems.Life.CommandLine
import OperatingSystems.Life.Resume
import OperatingSystems.Life.Schedule
import OperatingSystems.Life.Writes

/-!
# The program life

`main` refuses its arguments or the file with one of five texts, and otherwise plays
the game and shows it. A file that cannot be opened never comes to its end, so it is
refused for its many lines. What a game writes does not depend on the threads: every
schedule writes a part of one text, and every schedule that cannot be continued all
of it.
-/

namespace OperatingSystems

namespace Life

open OperatingSystems.Thread OperatingSystems.Output

section Code

/-- Written for a wrong number of arguments. -/
def usageText : List UInt8 :=
  ascii "invalid input - 3,4, or 5 arguments must be given\n" ++
    ascii "format ./life threads filename generations print input"

def generationsText : List UInt8 := ascii "the generations has to be greater than 0\n"

def linesText : List UInt8 := ascii "too many lines\n"

def columnsText : List UInt8 := ascii "too many columns\n"

def threadsText : List UInt8 := ascii "Too many threads. The maximum is 10\n"

/-- The results of `getline` until the end of the file. A file that cannot be opened
has no end: every `getline` fails, and the 42nd empty line is one too many. -/
def delivered : Option (List UInt8) → List (List UInt8)
  | some file => getlines file
  | none => List.replicate 42 []

/-- The outer loop of the reader, with what it writes before it refuses the file. -/
def parseLines (before : Grid) (line maxCol : ℕ) :
    List (List UInt8) → Except (List UInt8) (Grid × ℕ × ℕ)
  | [] => .ok (before, line, maxCol)
  | l :: rest =>
      if line > 40 then .error linesText
      else
        match readTokens before line 0 (tokens l) with
        | none => .error columnsText
        | some (before, column) => parseLines before (line + 1) (max maxCol column) rest

/-- The reader, on the zero-initialised `before`. -/
def parse (file : Option (List UInt8)) : Except (List UInt8) Board :=
  match parseLines (fun _ => 0) 0 0 (delivered file) with
  | .error text => .error text
  | .ok (before, line, maxCol) =>
      .ok { lineSize := line - 1, columnSize := maxCol, before := before }

/-- The first byte of an argument that may be missing. -/
def flag (argv : List (List UInt8)) (i : ℕ) : UInt8 :=
  if argv.length > i then (argv.getD i []).headD 0 else 110

/-- `main` up to the creation of the threads; what it writes when it ends before, with
exit status 1, or what it goes on with. -/
def commandLine (argv : List (List UInt8)) (file : Option (List UInt8)) :
    Except (List UInt8) (Start × Options) :=
  if argv.length < 4 ∨ 6 < argv.length then .error usageText
  else
    let numberOfThreadsInput := atoi (argv.getD 1 [])
    let generations := atoi (argv.getD 3 [])
    if generations ≤ 0 then .error generationsText
    else
      match parse file with
      | .error text => .error text
      | .ok board =>
          if numberOfThreadsInput > 10 then .error threadsText
          else .ok
            ({ board := board
               numberOfGenerations := generations
               numberOfThreads :=
                 if numberOfThreadsInput > board.lineSize then board.lineSize
                 else numberOfThreadsInput },
             { isPrint := flag argv 4 = 121
               isInput := flag argv 5 = 121 })

end Code

section Refusals

variable {before : Grid} {line maxCol : ℕ} {ls : List (List UInt8)} {text : List UInt8}

theorem readTokens_eq_none_iff (before : Grid) (line : ℕ) (ts : List (List UInt8)) :
    readTokens before line 0 ts = none ↔ 40 < ts.length := by
  rw [readTokens_eq_log, logTokens_result line ts (Nat.zero_le 40), Option.map_eq_none_iff]
  split <;> simp <;> omega

/-- A line with too many tokens is refused when it is read, and a line too many
before it is read. -/
theorem parseLines_error_iff (hline : line ≤ 41) :
    parseLines before line maxCol ls = .error text ↔
      (∃ l ∈ ls.take (41 - line), 40 < (tokens l).length) ∧ text = columnsText ∨
        (∀ l ∈ ls.take (41 - line), (tokens l).length ≤ 40) ∧ 41 - line < ls.length ∧
          text = linesText := by
  induction ls generalizing before line maxCol with
  | nil => simp [parseLines]
  | cons l rest ih =>
      rcases hline.lt_or_eq with hlt | rfl
      · obtain ⟨k, hk⟩ : ∃ k, 41 - line = k + 1 := ⟨40 - line, by omega⟩
        have hk' : 41 - (line + 1) = k := by omega
        rw [parseLines, if_neg (by omega), hk, List.take_succ_cons, List.length_cons]
        simp only [List.mem_cons, exists_eq_or_imp, forall_eq_or_imp]
        cases hread : readTokens before line 0 (tokens l) with
        | none =>
            have hmany := (readTokens_eq_none_iff _ _ _).mp hread
            simp [hmany, not_le.mpr hmany, eq_comm]
        | some r =>
            have hfew : ¬ 40 < (tokens l).length := fun hmany => by
              rw [(readTokens_eq_none_iff _ _ _).mpr hmany] at hread
              contradiction
            dsimp only
            rw [ih (by omega), hk']
            simp [hfew, not_lt.mp hfew]
      · simp [parseLines, eq_comm]

theorem parse_error_iff (file : Option (List UInt8)) :
    parse file = .error text ↔
      (∃ l ∈ (delivered file).take 41, 40 < (tokens l).length) ∧ text = columnsText ∨
        (∀ l ∈ (delivered file).take 41, (tokens l).length ≤ 40) ∧
          41 < (delivered file).length ∧ text = linesText := by
  have hlines := @parseLines_error_iff (fun _ => 0) 0 0 (delivered file) text (Nat.zero_le 41)
  rw [Nat.sub_zero] at hlines
  rw [← hlines, parse]
  cases parseLines (fun _ => 0) 0 0 (delivered file) <;> simp

/-- The lines of a file that is not refused. -/
theorem lines_of_parse {file : Option (List UInt8)} {board : Board}
    (h : parse file = .ok board) :
    (∀ l ∈ (delivered file).take 41, (tokens l).length ≤ 40) ∧
      (delivered file).length ≤ 41 := by
  have hfew : ∀ l ∈ (delivered file).take 41, (tokens l).length ≤ 40 := by
    by_contra hmany
    simp only [not_forall, not_le] at hmany
    obtain ⟨l, hl, hmany⟩ := hmany
    rw [(parse_error_iff file).mpr (.inl ⟨⟨l, hl, hmany⟩, rfl⟩)] at h
    contradiction
  refine ⟨hfew, not_lt.mp fun hlong => ?_⟩
  rw [(parse_error_iff file).mpr (.inr ⟨hfew, hlong, rfl⟩)] at h
  contradiction

/-- What `main` refuses, and with which text: first a wrong number of arguments, then
the number of generations, then the first line of the file that is one too many or has
too many tokens, and then the number of threads. -/
theorem refused_iff (argv : List (List UInt8)) (file : Option (List UInt8))
    (text : List UInt8) :
    commandLine argv file = .error text ↔
      (argv.length < 4 ∨ 6 < argv.length) ∧ text = usageText ∨
      (4 ≤ argv.length ∧ argv.length ≤ 6) ∧
        (atoi (argv.getD 3 []) ≤ 0 ∧ text = generationsText ∨
        0 < atoi (argv.getD 3 []) ∧
          ((∃ l ∈ (delivered file).take 41, 40 < (tokens l).length) ∧ text = columnsText ∨
          (∀ l ∈ (delivered file).take 41, (tokens l).length ≤ 40) ∧
            (41 < (delivered file).length ∧ text = linesText ∨
            (delivered file).length ≤ 41 ∧ 10 < atoi (argv.getD 1 []) ∧ text = threadsText))) := by
  unfold commandLine
  dsimp only
  generalize atoi (argv.getD 3 []) = generations
  generalize atoi (argv.getD 1 []) = numberOfThreadsInput
  split
  · rename_i hargs
    have hnot : ¬ (4 ≤ argv.length ∧ argv.length ≤ 6) := by omega
    simp [hargs, hnot, eq_comm]
  · rename_i hargs
    have hok : 4 ≤ argv.length ∧ argv.length ≤ 6 := by omega
    simp only [hargs, false_and, false_or, hok, and_self, true_and]
    split
    · rename_i hgen
      simp [hgen, not_lt.mpr hgen, eq_comm]
    · rename_i hgen
      simp only [hgen, false_and, false_or, not_le.mp hgen, true_and]
      cases hread : parse file with
      | error refusal =>
          rcases (parse_error_iff file).mp hread with ⟨hmany, rfl⟩ | ⟨hfew, hlong, rfl⟩
          · have hnot : ¬ ∀ l ∈ (delivered file).take 41, (tokens l).length ≤ 40 := by
              simpa using hmany
            simp [hmany, hnot, eq_comm]
          · have hnot : ¬ ∃ l ∈ (delivered file).take 41, 40 < (tokens l).length := by
              simpa using hfew
            simp only [hnot, false_and, false_or, hlong, not_le.mpr hlong, or_false, true_and,
              Except.error.injEq]
            exact ⟨fun h => ⟨hfew, h.symm⟩, fun h => h.2.symm⟩
      | ok board =>
          obtain ⟨hfew, hshort⟩ := lines_of_parse hread
          have hnot : ¬ ∃ l ∈ (delivered file).take 41, 40 < (tokens l).length := by
            simpa using hfew
          simp only [hnot, false_and, false_or, not_lt.mpr hshort, hshort, true_and]
          split
          · rename_i hmax
            simp only [gt_iff_lt.mp hmax, true_and, Except.error.injEq]
            exact ⟨fun h => ⟨hfew, h.symm⟩, fun h => h.2.symm⟩
          · rename_i hmax
            simp [hmax]

end Refusals

section Accepted

variable {argv : List (List UInt8)} {file : List UInt8} {s : Start} {o : Options}

/-- The two forms of the reader agree. -/
theorem parse_eq_reader (file : List UInt8) : (parse (some file)).toOption = reader file := by
  have hlines : ∀ (before : Grid) (line maxCol : ℕ) (ls : List (List UInt8)),
      (parseLines before line maxCol ls).toOption = readLines before line maxCol ls := by
    intro before line maxCol ls
    induction ls generalizing before line maxCol with
    | nil => rfl
    | cons l rest ih =>
        rw [parseLines, readLines]
        split
        · rfl
        · cases readTokens before line 0 (tokens l) with
          | none => rfl
          | some r => exact ih _ _ _
  rw [reader, ← hlines, parse, delivered]
  cases parseLines (fun _ => 0) 0 0 (getlines file) <;> rfl

theorem start_of_commandLine (h : commandLine argv (some file) = .ok (s, o)) :
    start argv file = some s := by
  have hread := parse_eq_reader file
  unfold commandLine at h
  unfold start
  dsimp only at h ⊢
  split at h
  · contradiction
  · rename_i hargs
    rw [if_neg hargs]
    split at h
    · contradiction
    · rename_i hgen
      rw [if_neg hgen, ← hread]
      split at h
      · contradiction
      · rename_i hparse
        rw [hparse]
        split at h
        · contradiction
        · rename_i hmax
          obtain ⟨rfl, -⟩ := Prod.mk.inj (Except.ok.inj h)
          exact if_neg hmax

/-- `main` starts a thread if it is asked for one and the file has a line. -/
theorem one_le_threads (h : start argv file = some s) (hasked : 1 ≤ atoi (argv.getD 1 []))
    (hline : (10 : UInt8) ∈ file) : 1 ≤ s.numberOfThreads := by
  obtain ⟨hread, -, -, hmin⟩ := start_spec h
  have hlines := lineSize_eq hread
  have hlong := one_lt_length_getlines.mpr hline
  omega

/-- The game that `main` plays. -/
def played (h : commandLine argv (some file) = .ok (s, o)) (hasked : 1 ≤ atoi (argv.getD 1 []))
    (hline : (10 : UInt8) ∈ file) (uninit : ℕ → ℕ → Msg) : Game :=
  Start.game (start_of_commandLine h) (one_le_threads (start_of_commandLine h) hasked hline)
    uninit

/-- Whatever the arguments and the file are, if `main` accepts them, is asked for a
thread and finds a line: no schedule of the threads has more than `maxSteps` steps, and
each can be continued until no thread can go on. If the board fits, there is one text,
with the number of generations after which the sequential game ends, such that every
schedule has written a part of it. One that cannot be continued has written the whole
text, and all threads have ended unless there are several workers and the board settles
just at the last generation. -/
theorem played_of_schedule (h : commandLine argv (some file) = .ok (s, o))
    (hasked : 1 ≤ atoi (argv.getD 1 [])) (hline : (10 : UInt8) ∈ file)
    (uninit : ℕ → ℕ → Msg) (blank : Msg) (input : List UInt8) :
    (∀ schedule st, Transition.run next schedule
        ((played h hasked hline uninit).startTerminal o blank input) = some st →
      schedule.length ≤ (played h hasked hline uninit).maxSteps ∧
      ∃ rest st', Transition.run next (schedule ++ rest)
          ((played h hasked hline uninit).startTerminal o blank input) = some st' ∧
        Transition.Stuck next st') ∧
    (Fits s.board.lineSize s.board.columnSize →
      ∃ n, (played h hasked hline uninit).Ends n ∧ ∀ schedule st,
        Transition.run next schedule
            ((played h hasked hline uninit).startTerminal o blank input) = some st →
          st.mem.output <+: (played h hasked hline uninit).transcript o n ∧
          (Transition.Stuck next st →
            st.mem.output = (played h hasked hline uninit).transcript o n ∧
            st.mem.input = unread o input ((played h hasked hline uninit).roundsBegun n) ∧
            ((∀ t ∈ (played h hasked hline uninit).threads, st.status t = .exited) ↔
              ¬ (played h hasked hline uninit).SettlesLast))) := by
  refine ⟨fun schedule st hrun => ⟨length_of_run hrun, exists_complete hrun⟩, fun hfits => ?_⟩
  have hfits : Fits (played h hasked hline uninit).lineSize
      (played h hasked hline uninit).columnSize := hfits
  generalize played h hasked hline uninit = g at hfits
  obtain ⟨n, hn⟩ := g.exists_ends
  refine ⟨n, hn, fun schedule st hrun => ?_⟩
  have hreach := Transition.Reachable.of_run schedule Relation.ReflTransGen.refl hrun
  refine ⟨(onScreen_of_reachable hfits hreach).isPrefix hfits hreach hn, fun hstuck => ?_⟩
  obtain ⟨m, hm, hout, hread⟩ := transcript_of_stuck hfits hreach hstuck
  obtain rfl := hm.unique hn
  exact ⟨hout, hread, exited_iff_of_stuck hfits hreach hstuck⟩

section Example

/-- `life threads f 5 y y`. -/
def lifeShown (threads : UInt8) : List (List UInt8) :=
  [ascii "life", [threads], ascii "f", ascii "5", ascii "y", ascii "y"]

/-- The board of `hook` in a file. -/
def hookFile : List UInt8 := ascii "0 1\n0 1\n1 1\n"

def hookStarted (numberOfThreads : ℤ) : Start :=
  { board :=
      { lineSize := 3
        columnSize := 2
        before := store (store (store (store (store (store (fun _ => 0) 0 0 0) 0 1 1) 1 0 0) 1 1 1)
          2 0 1) 2 1 1 }
    numberOfGenerations := 5
    numberOfThreads := numberOfThreads }

theorem commandLine_two :
    commandLine (lifeShown 50) (some hookFile) = .ok (hookStarted 2, ⟨true, true⟩) := rfl

theorem commandLine_three :
    commandLine (lifeShown 51) (some hookFile) = .ok (hookStarted 3, ⟨true, true⟩) := rfl

def playedByTwo : Game := played commandLine_two (by decide) (by decide) hookFive.uninit

def playedByThree : Game := played commandLine_three (by decide) (by decide) hookFive.uninit

/-- Three boards are shown, and with them the three generations that are played. -/
theorem played_of_schedule_hook :
    ∃ schedule, ∃ st : State (playedByTwo.terminal ⟨true, true⟩),
      Transition.run next schedule
        (playedByTwo.startTerminal ⟨true, true⟩ (hookFive.uninit 0 0) [10, 10, 10, 10]) =
          some st ∧
      Transition.Stuck next st ∧
      st.mem.output = ascii "Generation 0:\n0 1 \n0 1 \n1 1 \n\n" ++
        ascii "Generation 1:\n0 0 \n0 1 \n1 1 \n\n" ++
        ascii "Generation 2:\n0 0 \n1 1 \n1 1 \n\n" ++
        ascii "The game ends after 3 generations with:\n0 0 \n1 1 \n1 1 \n" ∧
      st.mem.input = [10] ∧ ∀ t ∈ playedByTwo.threads, st.status t = .exited := by
  obtain ⟨hruns, hall⟩ := played_of_schedule commandLine_two (by decide) (by decide)
    hookFive.uninit (hookFive.uninit 0 0) [10, 10, 10, 10]
  obtain ⟨n, hn, hall⟩ := hall (by decide)
  obtain ⟨-, rest, st, hrun, hstuck⟩ := hruns [] _ rfl
  obtain ⟨-, hend⟩ := hall rest st hrun
  obtain ⟨hout, hread, hexited⟩ := hend hstuck
  have hthree : playedByTwo.Settled 3 := by decide +kernel
  have hends : playedByTwo.Ends 3 := by
    refine ⟨.inr ⟨by decide, hthree⟩, ?_⟩
    rintro k (rfl | ⟨hk, hsettled⟩)
    · decide
    · by_contra hlt
      have hone : ¬ playedByTwo.Settled 1 := by decide +kernel
      have htwo : ¬ playedByTwo.Settled 2 := by decide +kernel
      interval_cases k <;> contradiction
  obtain rfl := hn.unique hends
  refine ⟨rest, st, hrun, hstuck, hout.trans (by decide +kernel), hread.trans (by decide +kernel),
    hexited.mpr ?_⟩
  rintro ⟨-, hleast⟩
  exact absurd (hleast.2 ⟨by decide, hthree⟩ : 5 ≤ 3) (by decide)

end Example

/-- Two games that differ in their threads, and in what their messages hold by chance. -/
structure Game.SameBoards (g g' : Game) : Prop where
  lineSize : g'.lineSize = g.lineSize
  columnSize : g'.columnSize = g.columnSize
  numberOfGenerations : g'.numberOfGenerations = g.numberOfGenerations
  before : g'.before = g.before

namespace Game.SameBoards

variable {g g' : Game}

theorem settled_iff (h : g.SameBoards g') (n : ℕ) : g'.Settled n ↔ g.Settled n := by
  have hhist := hist_eq_of_before h.lineSize h.columnSize h.before
  unfold Game.Settled
  rw [h.lineSize, h.columnSize, hhist, hhist]

theorem ends_iff (h : g.SameBoards g') (n : ℕ) : g'.Ends n ↔ g.Ends n := by
  unfold Game.Ends
  simp only [h.numberOfGenerations, h.settled_iff]

theorem roundsBegun (h : g.SameBoards g') (n : ℕ) : g'.roundsBegun n = g.roundsBegun n :=
  if_congr (h.settled_iff n) rfl rfl

/-- They write the same. -/
theorem transcript (h : g.SameBoards g') (o : Options) (n : ℕ) :
    g'.transcript o n = g.transcript o n := by
  have hhist := hist_eq_of_before h.lineSize h.columnSize h.before
  have hshows : g'.shows = g.shows := by
    funext k
    rw [Game.shows, Game.shows, h.lineSize, h.columnSize, hhist]
  rw [Game.transcript, Game.transcript, h.roundsBegun, Game.shown, Game.shown, hshows, Game.ending,
    Game.ending, h.lineSize, h.columnSize, hhist]

end Game.SameBoards

/-- What life writes and reads does not depend on the number of threads: two command
lines with the same file of a board that fits, the same generations and options, in
whatever number of threads they ask for, write the same text in all schedules that cannot
be continued, and leave the same input. -/
theorem same_output {argv' : List (List UInt8)} {s' : Start}
    (h : commandLine argv (some file) = .ok (s, o))
    (h' : commandLine argv' (some file) = .ok (s', o))
    (hgen : s'.numberOfGenerations = s.numberOfGenerations)
    (hasked : 1 ≤ atoi (argv.getD 1 [])) (hasked' : 1 ≤ atoi (argv'.getD 1 []))
    (hline : (10 : UInt8) ∈ file) (hfits : Fits s.board.lineSize s.board.columnSize)
    {uninit uninit' : ℕ → ℕ → Msg} {blank blank' : Msg}
    {input : List UInt8} {st : State ((played h hasked hline uninit).terminal o)}
    {st' : State ((played h' hasked' hline uninit').terminal o)}
    (hs : Transition.Reachable next
      ((played h hasked hline uninit).startTerminal o blank input) st)
    (hs' : Transition.Reachable next
      ((played h' hasked' hline uninit').startTerminal o blank' input) st')
    (hstuck : Transition.Stuck next st) (hstuck' : Transition.Stuck next st') :
    st'.mem.output = st.mem.output ∧ st'.mem.input = st.mem.input := by
  have hboard : s'.board = s.board := by
    have hread := (start_spec (start_of_commandLine h)).1
    exact Option.some.inj ((start_spec (start_of_commandLine h')).1.symm.trans hread)
  have hsame : (played h hasked hline uninit).SameBoards (played h' hasked' hline uninit') :=
    ⟨congrArg Board.lineSize hboard, congrArg Board.columnSize hboard,
      congrArg Int.toNat hgen, congrArg Board.before hboard⟩
  obtain ⟨n, hn, hout, hread⟩ := transcript_of_stuck hfits hs hstuck
  obtain ⟨n', hn', hout', hread'⟩ := transcript_of_stuck (by rwa [← hboard] at hfits) hs' hstuck'
  obtain rfl := ((hsame.ends_iff n').mp hn').unique hn
  rw [hout, hout', hread, hread', hsame.transcript, hsame.roundsBegun]
  exact ⟨rfl, rfl⟩

section Example

/-- Two workers or three write the same. -/
theorem same_output_hook :
    ∃ (st : State (playedByTwo.terminal ⟨true, true⟩))
      (st' : State (playedByThree.terminal ⟨true, true⟩)),
      Transition.Stuck next st ∧ Transition.Stuck next st' ∧
        playedByThree.numberOfThreads = 3 ∧ st'.mem.output = st.mem.output := by
  have htwo : Transition.run next []
      (playedByTwo.startTerminal ⟨true, true⟩ (hookFive.uninit 0 0) [10, 10]) = some _ := rfl
  have hthree : Transition.run next []
      (playedByThree.startTerminal ⟨true, true⟩ (hookFive.uninit 0 0) [10, 10]) = some _ := rfl
  obtain ⟨rest, st, hrun, hstuck⟩ := exists_complete htwo
  obtain ⟨rest', st', hrun', hstuck'⟩ := exists_complete hthree
  have hs := Transition.Reachable.of_run _ Relation.ReflTransGen.refl hrun
  have hs' := Transition.Reachable.of_run _ Relation.ReflTransGen.refl hrun'
  exact ⟨st, st', hstuck, hstuck', rfl,
    (same_output commandLine_two commandLine_three rfl (by decide) (by decide) (by decide)
      (by decide) hs hs' hstuck hstuck').1⟩

end Example

end Accepted

end Life

end OperatingSystems
