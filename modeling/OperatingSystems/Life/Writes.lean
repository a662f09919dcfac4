import OperatingSystems.Life.Reader

/-!
# The writes of the reader

`logTokens` and `logLines` are the loops of the reader with the list of their
writes `before[line][column]`, those before a refusal included. The columns are
in bounds, but the test `line > MAXGRID` comes one line late: the tokens of the
41st line that `getline` delivers are written to row 40.
-/

namespace OperatingSystems

namespace Life

/-- `before[line][column] = value`. -/
structure Write where
  line : ℕ
  column : ℕ
  value : ℤ
  deriving DecidableEq, Repr

/-- The grid after a write. -/
def Write.apply (before : Grid) (w : Write) : Grid := store before w.line w.column w.value

/-- The inner loop: its writes and the column after the last token. -/
def logTokens (line : ℕ) : ℕ → List (List UInt8) → List Write × Option ℕ
  | column, [] => ([], some column)
  | column, token :: rest =>
      if column > 39 then ([], none)
      else
        match logTokens line (column + 1) rest with
        | (writes, result) => (⟨line, column, atoi token⟩ :: writes, result)

/-- The outer loop: its writes, the number of lines and the largest column. -/
def logLines (line maxCol : ℕ) : List (List UInt8) → List Write × Option (ℕ × ℕ)
  | [] => ([], some (line, maxCol))
  | l :: rest =>
      if line > 40 then ([], none)
      else
        match logTokens line 0 (tokens l) with
        | (writes, none) => (writes, none)
        | (writes, some column) =>
            match logLines (line + 1) (max maxCol column) rest with
            | (writes', result) => (writes ++ writes', result)

/-- The writes of the reader on a file. -/
def writes (file : List UInt8) : List Write := (logLines 0 0 (getlines file)).1

section Log

/-- The inner loop of the reader makes these writes. -/
theorem readTokens_eq_log (before : Grid) (line column : ℕ) (ts : List (List UInt8)) :
    readTokens before line column ts =
      (logTokens line column ts).2.map fun column' =>
        ((logTokens line column ts).1.foldl Write.apply before, column') := by
  induction ts generalizing before column with
  | nil => rfl
  | cons token rest ih =>
      rw [readTokens, logTokens]
      split
      · rfl
      · exact ih _ _

/-- The outer loop of the reader makes these writes. -/
theorem readLines_eq_log (before : Grid) (line maxCol : ℕ) (ls : List (List UInt8)) :
    readLines before line maxCol ls =
      (logLines line maxCol ls).2.map fun result =>
        ((logLines line maxCol ls).1.foldl Write.apply before, result) := by
  induction ls generalizing before line maxCol with
  | nil => rfl
  | cons l rest ih =>
      rw [readLines, logLines]
      split
      · rfl
      · rw [readTokens_eq_log]
        rcases logTokens line 0 (tokens l) with ⟨writes, _ | column⟩
        · rfl
        · dsimp only [Option.map_some]
          rw [ih]
          simp only [List.foldl_append]

/-- The board of an accepted file is what the writes make of the empty grid. -/
theorem reader_eq_log (file : List UInt8) :
    reader file = (logLines 0 0 (getlines file)).2.map fun (line, maxCol) =>
      { lineSize := line - 1, columnSize := maxCol,
        before := (writes file).foldl Write.apply fun _ => 0 } := by
  rw [reader, readLines_eq_log, Option.map_map]
  rfl

end Log

section Tokens

variable {line column : ℕ} {ts : List (List UInt8)}

/-- The inner loop refuses a line exactly when it has too many tokens. -/
theorem logTokens_result (line : ℕ) (ts : List (List UInt8)) (hcolumn : column ≤ 40) :
    (logTokens line column ts).2 =
      if column + ts.length ≤ 40 then some (column + ts.length) else none := by
  induction ts generalizing column with
  | nil => simp [logTokens, hcolumn]
  | cons token rest ih =>
      rw [logTokens, List.length_cons]
      split
      · rw [if_neg (by omega)]
      · rw [ih (by omega)]
        congr 1
        · exact propext (by omega)
        · congr 1
          omega

/-- The inner loop writes to its own line, below column 40. -/
theorem logTokens_writes {w : Write} (h : w ∈ (logTokens line column ts).1) :
    w.line = line ∧ w.column < 40 := by
  induction ts generalizing column with
  | nil => simp [logTokens] at h
  | cons token rest ih =>
      rw [logTokens] at h
      split at h
      · simp at h
      · rcases List.mem_cons.mp h with rfl | h
        · exact ⟨rfl, by dsimp only; omega⟩
        · exact ih h

/-- A line with a token is written to. -/
theorem logTokens_eq_nil_iff (line : ℕ) (ts : List (List UInt8)) :
    (logTokens line 0 ts).1 = [] ↔ ts = [] := by
  cases ts <;> simp [logTokens]

end Tokens

section Lines

variable {line maxCol : ℕ} {ls : List (List UInt8)}

/-- From line 41 on nothing is written. -/
theorem logLines_of_gt (h : 40 < line) : (logLines line maxCol ls).1 = [] := by
  cases ls with
  | nil => rfl
  | cons l rest => rw [logLines, if_pos h]

/-- The outer loop on one line, and then on the lines after it unless the line is
refused. -/
theorem logLines_cons (hline : line ≤ 40) (l : List UInt8) (rest : List (List UInt8)) :
    logLines line maxCol (l :: rest) =
      if (tokens l).length ≤ 40 then
        ((logTokens line 0 (tokens l)).1 ++
            (logLines (line + 1) (max maxCol (tokens l).length) rest).1,
          (logLines (line + 1) (max maxCol (tokens l).length) rest).2)
      else ((logTokens line 0 (tokens l)).1, none) := by
  have hresult := logTokens_result line (tokens l) (Nat.zero_le 40)
  rw [Nat.zero_add] at hresult
  rw [logLines, if_neg (not_lt.mpr hline)]
  generalize logTokens line 0 (tokens l) = first at hresult ⊢
  obtain ⟨writes, result⟩ := first
  obtain rfl : result = _ := hresult
  by_cases hmany : (tokens l).length ≤ 40
  · simp only [if_pos hmany]
  · simp only [if_neg hmany]

/-- The writes of one line, and then those of the lines after it. -/
theorem writes_logLines_cons (hline : line ≤ 40) (l : List UInt8) (rest : List (List UInt8)) :
    (logLines line maxCol (l :: rest)).1 =
      (logTokens line 0 (tokens l)).1 ++
        if (tokens l).length ≤ 40 then
          (logLines (line + 1) (max maxCol (tokens l).length) rest).1
        else [] := by
  rw [logLines_cons hline]
  split
  · rfl
  · exact (List.append_nil _).symm

theorem column_lt_of_mem {w : Write} (h : w ∈ (logLines line maxCol ls).1) : w.column < 40 := by
  induction ls generalizing line maxCol with
  | nil => simp [logLines] at h
  | cons l rest ih =>
      by_cases hline : line ≤ 40
      · rw [writes_logLines_cons hline] at h
        rcases List.mem_append.mp h with h | h
        · exact (logTokens_writes h).2
        · split at h
          · exact ih h
          · simp at h
      · rw [logLines_of_gt (by omega)] at h
        simp at h

/-- All rows are in bounds exactly when a line above row 40 is refused or row 40
gets no token. -/
theorem lines_in_bounds_iff (maxCol : ℕ) (hline : line ≤ 40) :
    (∀ w ∈ (logLines line maxCol ls).1, w.line < 40) ↔
      (∃ l ∈ ls.take (40 - line), 40 < (tokens l).length) ∨
        ∀ l, ls[40 - line]? = some l → tokens l = [] := by
  induction ls generalizing line maxCol with
  | nil => simp [logLines]
  | cons l rest ih =>
      rw [writes_logLines_cons hline]
      rcases hline.lt_or_eq with hlt | rfl
      · -- the tokens of this line are written above row 40
        have hfirst : ∀ w ∈ (logTokens line 0 (tokens l)).1, w.line < 40 := fun w hw => by
          rw [(logTokens_writes hw).1]
          exact hlt
        obtain ⟨k, hk⟩ : ∃ k, 40 - line = k + 1 := ⟨39 - line, by omega⟩
        have hk' : 40 - (line + 1) = k := by omega
        have hrest := @ih (line + 1) (max maxCol (tokens l).length) (by omega)
        rw [hk'] at hrest
        rw [hk, List.take_succ_cons, List.getElem?_cons_succ, List.forall_mem_append,
          and_iff_right hfirst]
        simp only [List.mem_cons, exists_eq_or_imp]
        by_cases hmany : (tokens l).length ≤ 40
        · rw [if_pos hmany, hrest]
          simp [not_lt.mpr hmany]
        · rw [if_neg hmany]
          simp [not_le.mp hmany]
      · -- row 40 itself
        have hafter : (if (tokens l).length ≤ 40 then
            (logLines (40 + 1) (max maxCol (tokens l).length) rest).1 else []) = [] := by
          split
          · exact logLines_of_gt (by omega)
          · rfl
        rw [hafter, List.append_nil]
        simp only [Nat.sub_self, List.take_zero, List.not_mem_nil, false_and, exists_false,
          false_or, List.getElem?_cons_zero, Option.some.injEq, forall_eq']
        rw [← logTokens_eq_nil_iff 40]
        constructor
        · intro hall
          apply List.eq_nil_iff_forall_not_mem.mpr
          intro w hw
          have hlt := hall w hw
          rw [(logTokens_writes hw).1] at hlt
          exact lt_irrefl _ hlt
        · intro hnil w hw
          rw [hnil] at hw
          simp at hw

end Lines

/-- The reader writes inside the array, and accepts only boards that fit it,
exactly on the files in which one of the first 40 lines has more than 40 tokens or
the text after the 40th newline begins with a line without tokens. -/
theorem writes_in_bounds_iff (file : List UInt8) :
    ((∀ w ∈ writes file, w.line < 40 ∧ w.column < 40) ∧
        ∀ b, reader file = some b → b.lineSize ≤ 40 ∧ b.columnSize ≤ 40) ↔
      (∃ l ∈ (getlines file).take 40, 40 < (tokens l).length) ∨
        ∀ l, (getlines file)[40]? = some l → tokens l = [] := by
  rw [← Nat.sub_zero 40, ← lines_in_bounds_iff 0 (Nat.zero_le 40)]
  constructor
  · rintro ⟨hall, -⟩ w hw
    exact (hall w hw).1
  · intro hlines
    refine ⟨fun w hw => ⟨hlines w hw, column_lt_of_mem hw⟩, fun b hb => ?_⟩
    obtain ⟨hline, hcolumn, -⟩ := reader_spec hb
    exact ⟨hline, hcolumn⟩

/-- A file of 41 lines, each with the number 1. -/
def tooManyLines : List UInt8 := (List.replicate 41 [49, 10]).flatten

/-- The number of the 41st line is written to row 40 before the file is refused. -/
theorem not_in_bounds_tooManyLines :
    (reader tooManyLines).isNone ∧ (⟨40, 0, 1⟩ : Write) ∈ writes tooManyLines ∧
      ¬ ((∀ w ∈ writes tooManyLines, w.line < 40 ∧ w.column < 40) ∧
        ∀ b, reader tooManyLines = some b → b.lineSize ≤ 40 ∧ b.columnSize ≤ 40) := by
  have hmem : (⟨40, 0, 1⟩ : Write) ∈ writes tooManyLines := by decide
  refine ⟨by decide, hmem, fun hall => ?_⟩
  have hlt := (hall.1 _ hmem).1
  exact absurd hlt (by decide)

end Life

end OperatingSystems
