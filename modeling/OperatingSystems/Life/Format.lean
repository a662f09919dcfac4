import Mathlib.Data.List.TakeWhile
import OperatingSystems.Life.Writes
import OperatingSystems.Run.Pieces

/-!
# The format of a board

A board file is a sequence of lines that each end with a newline. The tokens of a
line are its maximal pieces without space, comma and tab, and these are what
`strtok` finds. The reader accepts such a file exactly if it has at most 40 lines
with at most 40 tokens each, and stores the values of the tokens in the rows and
columns where they stand.
-/

namespace OperatingSystems

namespace Life

/-- A byte of a token: no space, no comma and no tab. -/
def isToken (c : UInt8) : Bool := !(c = 32 || c = 44 || c = 9)

/-- The file with these lines. -/
def text (lines : List (List UInt8)) : List UInt8 := lines.flatMap fun l => l ++ [10]

/-- A line without newline and without NUL bytes. -/
def IsLine (l : List UInt8) : Prop := (10 : UInt8) ∉ l ∧ (0 : UInt8) ∉ l

instance (l : List UInt8) : Decidable (IsLine l) :=
  inferInstanceAs (Decidable (_ ∧ _))

section Tokens

theorem splitOnP_congr {α : Type*} {p q : α → Bool} {l : List α} (h : ∀ a ∈ l, p a = q a) :
    l.splitOnP p = l.splitOnP q := by
  induction l with
  | nil => rfl
  | cons a l ih =>
      rw [List.splitOnP_cons_eq_if_modifyHead, List.splitOnP_cons_eq_if_modifyHead,
        h a List.mem_cons_self, ih fun b hb => h b (List.mem_cons_of_mem a hb)]

/-- `strtok` finds the maximal pieces of a line. -/
theorem pieces_tokens {l : List UInt8} (hl : IsLine l) : Run.Pieces isToken l (tokens l) := by
  have hnul : l.takeWhile (· ≠ 0) = l := by
    apply List.takeWhile_eq_self_iff.mpr
    intro c hc
    have hne : c ≠ 0 := fun h => hl.2 (h ▸ hc)
    simp [hne]
  have hsplit : l.splitOnP delim = Run.runs isToken l := by
    refine splitOnP_congr fun c hc => ?_
    have hne : c ≠ 10 := fun h => hl.1 (h ▸ hc)
    simp [delim, isToken, hne]
  rw [tokens, hnul, hsplit]
  exact Run.pieces_runs isToken l

theorem getlines_text {lines : List (List UInt8)} (h : ∀ l ∈ lines, IsLine l) :
    getlines (text lines) = lines ++ [[]] := by
  induction lines with
  | nil => rfl
  | cons l lines ih =>
      have hl := (h l List.mem_cons_self).1
      have ih := ih fun l' hl' => h l' (List.mem_cons_of_mem l hl')
      rw [getlines] at ih ⊢
      rw [text, List.flatMap_cons, List.append_assoc, List.singleton_append,
        List.splitOn_append_cons_self_of_not_mem hl, ← text, ih]
      rfl

end Tokens

section Result

variable {line maxCol : ℕ} {ls : List (List UInt8)}

/-- The largest number of tokens of a line. -/
def widest (ls : List (List UInt8)) : ℕ := (ls.map fun l => (tokens l).length).foldr max 0

/-- The outer loop goes to the end exactly when there are not too many lines and no
line has too many tokens. -/
theorem logLines_result (maxCol : ℕ) (ls : List (List UInt8)) (hline : line ≤ 41) :
    (logLines line maxCol ls).2 =
      if line + ls.length ≤ 41 ∧ ∀ l ∈ ls, (tokens l).length ≤ 40 then
        some (line + ls.length, max maxCol (widest ls))
      else none := by
  induction ls generalizing line maxCol with
  | nil => simp [logLines, hline, widest]
  | cons l rest ih =>
      by_cases hlast : line ≤ 40
      · rw [logLines_cons hlast, List.length_cons]
        by_cases hmany : (tokens l).length ≤ 40
        · have hlen : line + 1 + rest.length = line + (rest.length + 1) := by omega
          have hmax : max (max maxCol (tokens l).length) (widest rest) =
              max maxCol (widest (l :: rest)) := by
            rw [Nat.max_assoc]
            rfl
          rw [if_pos hmany, ih _ (Nat.succ_le_succ hlast), hlen, hmax]
          simp only [List.forall_mem_cons, hmany, true_and]
        · simp [hmany]
      · rw [logLines, if_pos (by omega), if_neg]
        rintro ⟨hlen, -⟩
        rw [List.length_cons] at hlen
        omega

end Result

section Cells

variable {line column maxCol : ℕ} {ts : List (List UInt8)} {ls : List (List UInt8)}

/-- The value of the `j`-th token, if there is one. -/
def value? (ts : List (List UInt8)) (j : ℕ) : Option ℤ := ts[j]?.map atoi

/-- The cells after the inner loop on a line that is not refused. -/
theorem cell_logTokens (before : Grid) (hlen : column + ts.length ≤ 40) {i j : ℕ} (hj : j < 40) :
    cell ((logTokens line column ts).1.foldl Write.apply before) i j =
      if i = line ∧ column ≤ j then (value? ts (j - column)).getD (cell before i j)
      else cell before i j := by
  induction ts generalizing before column with
  | nil => simp [logTokens, value?]
  | cons token rest ih =>
      rw [List.length_cons] at hlen
      rw [logTokens, if_neg (by omega)]
      dsimp only
      rw [List.foldl_cons, ih _ (by omega)]
      dsimp only [Write.apply]
      by_cases hi : i = line
      · subst hi
        rcases Nat.lt_trichotomy j column with hlt | rfl | hgt
        · rw [if_neg (by omega), if_neg (by omega)]
          exact cell_store_of_ne _ _ (by omega) (by omega) (by omega) (by omega) (by omega)
        · rw [if_neg (by omega), if_pos ⟨rfl, le_refl _⟩, Nat.sub_self]
          exact cell_store_self _ _ _ _
        · obtain ⟨d, hd⟩ : ∃ d, j - column = d + 1 := ⟨j - column - 1, by omega⟩
          have hd' : j - (column + 1) = d := by omega
          rw [if_pos ⟨rfl, by omega⟩, if_pos ⟨rfl, by omega⟩, hd, hd',
            cell_store_of_ne _ _ (by omega) (by omega) (by omega) (by omega) (by omega)]
          rfl
      · rw [if_neg (by omega), if_neg (by omega)]
        exact cell_store_of_ne _ _ (by omega) (by omega) (by omega) (by omega) (by omega)

/-- The cells after the outer loop on lines that are not refused. -/
theorem cell_logLines (line maxCol : ℕ) (before : Grid) (hlen : line + ls.length ≤ 41)
    (htokens : ∀ l ∈ ls, (tokens l).length ≤ 40) {i j : ℕ} (hj : j < 40) :
    cell ((logLines line maxCol ls).1.foldl Write.apply before) i j =
      if line ≤ i then
        (ls[i - line]?.bind fun l => value? (tokens l) j).getD (cell before i j)
      else cell before i j := by
  induction ls generalizing before line maxCol with
  | nil => simp [logLines]
  | cons l rest ih =>
      rw [List.length_cons] at hlen
      have hl := htokens l List.mem_cons_self
      rw [writes_logLines_cons (by omega), if_pos hl, List.foldl_append,
        ih _ _ _ (by omega) fun l' hl' => htokens l' (List.mem_cons_of_mem l hl'),
        cell_logTokens _ (by omega) hj]
      rcases Nat.lt_trichotomy i line with hlt | rfl | hgt
      · rw [if_neg (by omega), if_neg (by omega), if_neg (by omega)]
      · rw [if_neg (by omega), if_pos ⟨rfl, Nat.zero_le j⟩, if_pos (le_refl i), Nat.sub_self,
          Nat.sub_zero]
        rfl
      · obtain ⟨d, hd⟩ : ∃ d, i - line = d + 1 := ⟨i - line - 1, by omega⟩
        have hd' : i - (line + 1) = d := by omega
        rw [if_pos (by omega), if_neg (by omega), if_pos (by omega), hd, hd',
          List.getElem?_cons_succ]

end Cells

section Text

variable {lines : List (List UInt8)} (hlines : ∀ l ∈ lines, IsLine l)
include hlines

/-- The reader on a file of newline-terminated lines. -/
theorem reader_text :
    reader (text lines) =
      if lines.length ≤ 40 ∧ ∀ l ∈ lines, (tokens l).length ≤ 40 then
        some { lineSize := lines.length, columnSize := widest lines,
               before := (writes (text lines)).foldl Write.apply fun _ => 0 }
      else none := by
  have hempty : tokens [] = [] := rfl
  have hresult := logLines_result 0 (lines ++ [[]]) (Nat.zero_le 41)
  have hall : (0 + (lines ++ [[]]).length ≤ 41 ∧
      ∀ l ∈ lines ++ [[]], (tokens l).length ≤ 40) ↔
        lines.length ≤ 40 ∧ ∀ l ∈ lines, (tokens l).length ≤ 40 := by
    rw [List.length_append, List.length_singleton, List.forall_mem_append,
      List.forall_mem_singleton, hempty, List.length_nil, and_iff_left (Nat.zero_le 40)]
    exact and_congr_left fun _ => by omega
  rw [if_congr hall rfl rfl] at hresult
  rw [reader_eq_log, writes, getlines_text hlines, hresult]
  split
  · simp [widest, hempty]
  · rfl

/-- What is stored for a line that is not refused. -/
theorem cell_text (hlen : lines.length ≤ 40) (htokens : ∀ l ∈ lines, (tokens l).length ≤ 40)
    {i j : ℕ} {l : List UInt8} (hl : lines[i]? = some l) (hj : j < 40) :
    cell ((writes (text lines)).foldl Write.apply fun _ => 0) i j =
      ((tokens l)[j]?.map atoi).getD 0 := by
  have hi := (List.getElem?_eq_some_iff.mp hl).1
  have htokens' : ∀ l ∈ lines ++ [[]], (tokens l).length ≤ 40 :=
    List.forall_mem_append.mpr ⟨htokens, List.forall_mem_singleton.mpr (Nat.zero_le 40)⟩
  have hlen' : 0 + (lines ++ [[]]).length ≤ 41 := by
    rw [List.length_append, List.length_singleton]
    omega
  have hcell := cell_logLines 0 0 (fun _ => 0) (i := i) hlen' htokens' hj
  rw [if_pos (Nat.zero_le i), Nat.sub_zero, List.getElem?_append_left hi, hl] at hcell
  rw [writes, getlines_text hlines]
  exact hcell

/-- Up to 40 lines are written inside the array: the text after the last newline has
no token. -/
theorem writes_text_in_bounds (hlen : lines.length ≤ 40) {w : Write}
    (hw : w ∈ writes (text lines)) : w.line < 40 ∧ w.column < 40 := by
  rw [writes, getlines_text hlines] at hw
  refine ⟨(lines_in_bounds_iff 0 (Nat.zero_le 40)).mpr (.inr fun l hl => ?_) w hw,
    column_lt_of_mem hw⟩
  rw [List.getElem?_append_right hlen] at hl
  obtain rfl := List.mem_singleton.mp (List.mem_of_getElem? hl)
  rfl

end Text

/-- On a file of newline-terminated lines, where `toks` lists the maximal pieces of
each line without space, comma and tab: the file is refused exactly if it has more
than 40 lines or a line with more than 40 tokens. Otherwise `lineSize` is the number
of lines, `columnSize` the largest number of tokens, and each cell of a line of
`before` has the value of its token, or 0 if there is none; nothing is written past
the array. -/
theorem reader_of_lines {lines : List (List UInt8)} (hlines : ∀ l ∈ lines, IsLine l)
    {toks : List UInt8 → List (List UInt8)}
    (htoks : ∀ l ∈ lines, Run.Pieces isToken l (toks l)) :
    (reader (text lines) = none ↔ 40 < lines.length ∨ ∃ l ∈ lines, 40 < (toks l).length) ∧
      ∀ b, reader (text lines) = some b →
        b.lineSize = lines.length ∧
        b.columnSize = (lines.map fun l => (toks l).length).foldr max 0 ∧
        (∀ (i j : ℕ) l, lines[i]? = some l → j < 40 →
          cell b.before i j = (((toks l)[j]?).map atoi).getD 0) ∧
        ∀ w ∈ writes (text lines), w.line < 40 ∧ w.column < 40 := by
  have heq : ∀ l ∈ lines, toks l = tokens l := fun l hl =>
    (htoks l hl).unique (pieces_tokens (hlines l hl))
  have hwidth : (lines.map fun l => (toks l).length) = lines.map fun l => (tokens l).length :=
    List.map_congr_left fun l hl => by rw [heq l hl]
  have hmany : (∃ l ∈ lines, 40 < (toks l).length) ↔ ∃ l ∈ lines, 40 < (tokens l).length :=
    exists_congr fun l => and_congr_right fun hl => by rw [heq l hl]
  rw [hwidth, hmany, reader_text hlines]
  by_cases hok : lines.length ≤ 40 ∧ ∀ l ∈ lines, (tokens l).length ≤ 40
  · rw [if_pos hok]
    obtain ⟨hlen, htokens⟩ := hok
    refine ⟨iff_of_false (by simp) ?_, fun b hb => ?_⟩
    · rintro (hlong | ⟨l, hl, hlong⟩)
      · exact absurd hlong (not_lt.mpr hlen)
      · exact absurd hlong (not_lt.mpr (htokens l hl))
    · obtain rfl := Option.some.inj hb
      refine ⟨rfl, rfl, fun i j l hl hj => ?_, fun w hw => writes_text_in_bounds hlines hlen hw⟩
      rw [heq l (List.mem_of_getElem? hl)]
      exact cell_text hlines hlen htokens hl hj
  · rw [if_neg hok]
    refine ⟨iff_of_true rfl ?_, fun b hb => by contradiction⟩
    by_contra hno
    push Not at hno
    exact hok hno

/-- A ragged file of three lines, the second of them empty. -/
def threeLines : List (List UInt8) := [[49, 44, 32, 49], [], [9, 49]]

theorem reader_of_lines_threeLines : ∃ b, reader (text threeLines) = some b ∧ b.lineSize = 3 ∧
    b.columnSize = 2 ∧ cell b.before 2 0 = 1 ∧ cell b.before 2 1 = 0 := by
  have hlines : ∀ l ∈ threeLines, IsLine l := by decide
  obtain ⟨hnone, hboard⟩ :=
    reader_of_lines hlines fun l hl => pieces_tokens (hlines l hl)
  cases hread : reader (text threeLines) with
  | none => exact absurd (hnone.mp hread) (by decide)
  | some b =>
      obtain ⟨hline, hcolumn, hcell, -⟩ := hboard b hread
      exact ⟨b, rfl, hline, hcolumn, hcell 2 0 _ rfl (by decide), hcell 2 1 _ rfl (by decide)⟩

end Life

end OperatingSystems
