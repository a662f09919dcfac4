import Mathlib.Data.Int.Range
import OperatingSystems.Life.Format
import OperatingSystems.Life.History

/-!
# The command line of life

`main` checks the number of arguments and the number of generations, reads the
board, and refuses more than ten threads; then it takes the smaller of the number
of threads asked for and the number of lines. `Start` is what it goes on with when
it creates the threads. There is no check from below, and so the number of threads
may be zero or negative; where it is positive, `main` plays the game of `Threads`.
-/

namespace OperatingSystems

namespace Life

/-- What `main` goes on with after its checks. -/
structure Start where
  board : Board
  numberOfGenerations : ℤ
  numberOfThreads : ℤ

/-- `main` up to the creation of the threads; `argv` includes the name of the
program, and `file` is the input file. -/
def start (argv : List (List UInt8)) (file : List UInt8) : Option Start :=
  if argv.length < 4 ∨ 6 < argv.length then none
  else
    let numberOfThreadsInput := atoi (argv.getD 1 [])
    let generations := atoi (argv.getD 3 [])
    if generations ≤ 0 then none
    else
      match reader file with
      | none => none
      | some board =>
          if numberOfThreadsInput > 10 then none
          else some
            { board := board
              numberOfGenerations := generations
              numberOfThreads :=
                if numberOfThreadsInput > board.lineSize then board.lineSize
                else numberOfThreadsInput }

namespace Start

variable (s : Start)

/-- `range`. -/
def range : ℤ := (s.board.lineSize : ℤ).tdiv s.numberOfThreads

/-- The mailboxes and the `RANGE` messages that `main` sends to them. -/
def sends : List (ℤ × Msg) :=
  ((List.range (s.numberOfThreads - 1).toNat).map fun i : ℕ =>
    ((i : ℤ) + 1,
      { iFrom := 0, type := .range, value1 := i * s.range, value2 := (i + 1) * s.range - 1 })) ++
  [(s.numberOfThreads,
    { iFrom := 0, type := .range, value1 := (s.numberOfThreads - 1) * s.range,
      value2 := s.board.lineSize - 1 })]

/-- The ranges that the workers get. -/
def ranges : List (ℤ × ℤ) := s.sends.map fun p => (p.2.value1, p.2.value2)

/-- The mailboxes that messages are sent to: 0 by the workers, and by `main` those of
the `RANGE` messages and, in its rounds, those of all workers. -/
def mailboxes : List ℤ := 0 :: (s.sends.map Prod.fst ++ Int.range 1 (s.numberOfThreads + 1))

/-- The number of threads is one that the rest of `main` can work with. -/
structure Valid : Prop where
  threads : 1 ≤ s.numberOfThreads ∧ s.numberOfThreads ≤ min 10 s.board.lineSize
  division : s.numberOfThreads ≠ 0
  array : 0 < s.numberOfThreads + 1
  mailboxes : ∀ k ∈ s.mailboxes, 0 ≤ k ∧ k ≤ 10
  workers : s.sends.map Prod.fst = Int.range 1 (s.numberOfThreads + 1)
  nonempty : ∀ p ∈ s.ranges, p.1 ≤ p.2
  consecutive : s.ranges.IsChain fun p q => q.1 = p.2 + 1
  disjoint : s.ranges.Pairwise fun p q => p.2 < q.1
  covers : ∀ row : ℤ, (∃ p ∈ s.ranges, p.1 ≤ row ∧ row ≤ p.2) ↔ 0 ≤ row ∧ row < s.board.lineSize

end Start

section Admitted

variable {argv : List (List UInt8)} {file : List UInt8} {s : Start}

/-- What has been checked. -/
theorem start_spec (h : start argv file = some s) :
    reader file = some s.board ∧ 1 ≤ s.numberOfGenerations ∧ atoi (argv.getD 1 []) ≤ 10 ∧
      s.numberOfThreads = min (atoi (argv.getD 1 [])) s.board.lineSize := by
  unfold start at h
  dsimp only at h
  split at h
  · contradiction
  · split at h
    · contradiction
    · split at h
      · contradiction
      · rename_i hread
        split at h
        · contradiction
        · obtain rfl := Option.some.inj h
          refine ⟨hread, by dsimp only; omega, by omega, ?_⟩
          dsimp only
          split <;> omega

/-- The number of lines of an accepted file is that of its newlines. -/
theorem lineSize_eq {b : Board} (h : reader file = some b) :
    b.lineSize = (getlines file).length - 1 := by
  rw [reader_eq_log, logLines_result _ _ (Nat.zero_le _)] at h
  split at h
  · obtain rfl := Option.some.inj h
    simp
  · contradiction

/-- A file with a newline has a line. -/
theorem one_lt_length_getlines : 1 < (getlines file).length ↔ (10 : UInt8) ∈ file := by
  unfold getlines
  constructor
  · intro hlen
    by_contra hno
    rw [List.splitOn_eq_singleton hno] at hlen
    exact absurd hlen (by simp)
  · intro hmem
    obtain ⟨x, y, rfl⟩ := List.append_of_mem hmem
    have hx := List.length_pos_of_ne_nil (List.splitOn_ne_nil 10 x)
    have hy := List.length_pos_of_ne_nil (List.splitOn_ne_nil 10 y)
    rw [List.splitOn_append_cons_self, List.length_append]
    omega

end Admitted

section Games

variable {s : Start} {g : Game}

/-- The messages are those of the game with as many lines and threads. -/
theorem Start.sends_eq (hlines : g.lineSize = s.board.lineSize)
    (hthreads : (g.numberOfThreads : ℤ) = s.numberOfThreads) :
    s.sends = (List.range g.numberOfThreads).map fun i : ℕ => ((i : ℤ) + 1, g.rangeMsg i) := by
  have hrange : s.range = g.range := by
    rw [Start.range, ← hlines, ← hthreads, Game.range, Int.ofNat_tdiv]
  obtain ⟨m, hm⟩ : ∃ m, g.numberOfThreads = m + 1 :=
    ⟨_, (Nat.sub_add_cancel g.one_le_threads).symm⟩
  have hcount : (s.numberOfThreads - 1).toNat = m := by omega
  rw [Start.sends, hcount, hm, List.range_succ, List.map_append, List.map_singleton, hrange]
  congr 1
  · refine List.map_congr_left fun i hi => ?_
    have hi := List.mem_range.mp hi
    rw [Game.rangeMsg, if_pos (by omega)]
  · have hpred : ((g.numberOfThreads - 1 : ℕ) : ℤ) = s.numberOfThreads - 1 := by omega
    rw [Game.rangeMsg, if_neg (by omega), hpred, hlines]
    congr 2
    omega

theorem Start.ranges_eq (hlines : g.lineSize = s.board.lineSize)
    (hthreads : (g.numberOfThreads : ℤ) = s.numberOfThreads) :
    s.ranges = (List.range g.numberOfThreads).map fun i : ℕ =>
      ((g.rangeMsg i).value1, (g.rangeMsg i).value2) := by
  rw [Start.ranges, Start.sends_eq hlines hthreads, List.map_map]
  rfl

/-- The range of the worker after the first `i`. -/
theorem Game.rangeMsg_lines {i : ℕ} (hi : i < g.numberOfThreads) :
    (g.rangeMsg i).value1 = (i * g.range : ℕ) ∧ (g.rangeMsg i).value1 ≤ (g.rangeMsg i).value2 ∧
      (i + 1 < g.numberOfThreads → (g.rangeMsg i).value2 = ((i + 1) * g.range : ℕ) - 1) := by
  obtain ⟨hfrom, hto⟩ := Game.rangeMsg_values (Game.mem_workers.mpr ⟨Nat.le_add_left 1 i, hi⟩)
  rw [Nat.add_sub_cancel] at hfrom hto
  have hpos := g.range_pos
  have hmul := g.mul_range_le
  have hle : (i + 1) * g.range ≤ g.numberOfThreads * g.range := Nat.mul_le_mul_right _ hi
  have hnext : (i + 1) * g.range = i * g.range + g.range := Nat.succ_mul _ _
  refine ⟨hfrom, ?_, fun hlt => ?_⟩
  · rw [hfrom, hto]
    split <;> omega
  · rw [hto, if_pos hlt]

/-- A start that is a game is valid. -/
theorem Start.valid_of_game (hlines : g.lineSize = s.board.lineSize)
    (hthreads : (g.numberOfThreads : ℤ) = s.numberOfThreads) : s.Valid := by
  have hone := g.one_le_threads
  have hmax := g.threads_le_max
  have hle := g.threads_le_lines
  have hsends := Start.sends_eq hlines hthreads
  have hranges := Start.ranges_eq hlines hthreads
  have hworkers : s.sends.map Prod.fst = Int.range 1 (s.numberOfThreads + 1) := by
    have hcount : (s.numberOfThreads + 1 - 1).toNat = g.numberOfThreads := by omega
    rw [hsends, List.map_map, Int.range, hcount]
    refine List.map_congr_left fun i _ => ?_
    exact Int.add_comm _ _
  refine ⟨by omega, by omega, by omega, fun k hk => ?_, hworkers, fun p hp => ?_, ?_, ?_,
    fun row => ?_⟩
  · rcases List.mem_cons.mp hk with rfl | hk
    · omega
    · rw [hworkers, List.mem_append, or_self, Int.mem_range_iff] at hk
      omega
  · rw [hranges] at hp
    obtain ⟨i, hi, rfl⟩ := List.mem_map.mp hp
    exact (Game.rangeMsg_lines (List.mem_range.mp hi)).2.1
  · rw [hranges, List.isChain_map, List.isChain_range]
    intro i hi
    have hfrom := (Game.rangeMsg_lines (g := g) (i := i + 1) (by omega)).1
    have hto := (Game.rangeMsg_lines (g := g) (i := i) (by omega)).2.2 (by omega)
    dsimp only
    rw [Nat.succ_eq_add_one, hfrom, hto]
    omega
  · rw [hranges]
    refine List.pairwise_map.mpr (List.pairwise_lt_range.imp_of_mem fun {i j} hi hj hij => ?_)
    have hj := List.mem_range.mp hj
    have hto := (Game.rangeMsg_lines (g := g) (i := i) (by omega)).2.2 (by omega)
    have hfrom := (Game.rangeMsg_lines hj).1
    have hmul : (i + 1) * g.range ≤ j * g.range := Nat.mul_le_mul_right _ hij
    rw [hto, hfrom]
    omega
  · rw [hranges, ← hlines]
    constructor
    · rintro ⟨p, hp, hfrom, hto⟩
      obtain ⟨i, hi, rfl⟩ := List.mem_map.mp hp
      have howns : g.Owns (i + 1) row := ⟨hfrom, hto⟩
      exact howns.on_board (Game.mem_workers.mpr ⟨Nat.le_add_left 1 i, List.mem_range.mp hi⟩)
    · rintro ⟨hrow, hlt⟩
      obtain ⟨i, hi, hfrom, hto⟩ := Game.exists_owns hrow hlt
      obtain ⟨hi1, hin⟩ := Game.mem_workers.mp hi
      exact ⟨_, List.mem_map.mpr ⟨i - 1, List.mem_range.mpr (by omega), rfl⟩, hfrom, hto⟩

end Games

section Valid

variable {argv : List (List UInt8)} {file : List UInt8} {s : Start}

/-- The game that `main` plays with a positive number of threads; the fields of a
message that it does not set are those of `uninit`. -/
def Start.game (h : start argv file = some s) (hthreads : 1 ≤ s.numberOfThreads)
    (uninit : ℕ → ℕ → Msg) : Game where
  lineSize := s.board.lineSize
  columnSize := s.board.columnSize
  numberOfGenerations := s.numberOfGenerations.toNat
  numberOfThreads := s.numberOfThreads.toNat
  before := s.board.before
  uninit := uninit
  lineSize_le := (reader_spec (start_spec h).1).1
  columnSize_le := (reader_spec (start_spec h).1).2.1
  one_le_generations := by
    have hgen := (start_spec h).2.1
    omega
  one_le_threads := by omega
  threads_le_max := by
    obtain ⟨-, -, hmax, hmin⟩ := start_spec h
    omega
  threads_le_lines := by
    obtain ⟨-, -, -, hmin⟩ := start_spec h
    omega

/-- After the checks of `main` the number of threads is valid, and the ranges of the
workers make up the rows of the board, exactly if the argument asks for at least one
thread and the file has a line. -/
theorem start_valid_iff (h : start argv file = some s) :
    s.Valid ↔ 1 ≤ atoi (argv.getD 1 []) ∧ (10 : UInt8) ∈ file := by
  obtain ⟨hread, -, -, hmin⟩ := start_spec h
  have hlines := lineSize_eq hread
  rw [← one_lt_length_getlines]
  constructor
  · rintro ⟨⟨hone, -⟩, -⟩
    omega
  · rintro ⟨hinput, hfile⟩
    have hone : 1 ≤ s.numberOfThreads := by omega
    refine Start.valid_of_game (g := Start.game h hone fun _ _ => ⟨0, .go, 0, 0⟩) rfl ?_
    exact Int.toNat_of_nonneg (by omega)

/-- `life n f 1`. -/
def oneGeneration (n : UInt8) : List (List UInt8) :=
  [[108, 105, 102, 101], [n], [102], [49]]

/-- Two threads on a board of two lines. -/
theorem start_valid_iff_two : ∃ s, start (oneGeneration 50) [49, 10, 49, 10] = some s ∧
    s.numberOfThreads = 2 ∧ s.Valid := by
  have hstart : (start (oneGeneration 50) [49, 10, 49, 10]).map Start.numberOfThreads =
      some 2 := by decide
  obtain ⟨s, hs, hthreads⟩ := Option.map_eq_some_iff.mp hstart
  exact ⟨s, hs, hthreads, (start_valid_iff hs).mpr (by decide)⟩

/-- A request for no thread passes the checks. -/
theorem not_valid_zero : (∃ s, start (oneGeneration 48) [49, 10, 49, 10] = some s ∧
      s.numberOfThreads = 0 ∧ ¬ s.Valid) ∧
    ¬ ∀ argv file s, start argv file = some s → s.Valid := by
  have hstart : (start (oneGeneration 48) [49, 10, 49, 10]).map Start.numberOfThreads =
      some 0 := by decide
  obtain ⟨s, hs, hthreads⟩ := Option.map_eq_some_iff.mp hstart
  have hnot : ¬ s.Valid := fun h => h.division hthreads
  exact ⟨⟨s, hs, hthreads, hnot⟩, fun hall => hnot (hall _ _ s hs)⟩

end Valid

end Life

end OperatingSystems
