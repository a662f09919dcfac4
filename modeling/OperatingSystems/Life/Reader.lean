import Mathlib.Algebra.Group.Int.Defs
import Mathlib.Algebra.Group.Nat.Defs
import OperatingSystems.Life.Board

/-!
# Reading the first board

`main` calls `getline` until the end of the file, so the last line it gets is
what follows the last newline, empty where the file ends with one. A line is cut
into tokens by `strtok`, each token is read by `atoi` and stored in the next
column of `before`. A file of more than 41 such lines or with more than 40
tokens in a line is refused; `lineSize` leaves the last line out.
-/

namespace OperatingSystems

namespace Life

/-- The delimiters of `strtok`: a space, a comma, a newline and a tab. -/
def delim (c : UInt8) : Bool := c = 32 || c = 44 || c = 10 || c = 9

/-- The results of `getline` up to the end of the file. -/
def getlines (file : List UInt8) : List (List UInt8) := file.splitOn 10

/-- The tokens that `strtok` finds in the C string of a line. -/
def tokens (line : List UInt8) : List (List UInt8) :=
  ((line.takeWhile (· ≠ 0)).splitOnP delim).filter (· ≠ [])

/-- The white space that `strtol` skips. -/
def isSpace (c : UInt8) : Bool := c = 32 || (9 ≤ c && c ≤ 13)

def isDigit (c : UInt8) : Bool := 48 ≤ c && c ≤ 57

/-- The value of the digits at the start of a text. -/
def digits (text : List UInt8) : ℕ :=
  (text.takeWhile isDigit).foldl (fun n c => 10 * n + (c.toNat - 48)) 0

/-- `strtol` in base 10, with its saturation. -/
def strtol (text : List UInt8) : ℤ :=
  match text.dropWhile isSpace with
  | [] => 0
  | c :: rest =>
      if c = 45 then max (- (2 : ℤ) ^ 63) (- (digits rest : ℤ))
      else if c = 43 then min ((2 : ℤ) ^ 63 - 1) (digits rest)
      else min ((2 : ℤ) ^ 63 - 1) (digits (c :: rest))

/-- `atoi`, which converts the result of `strtol` to an `int`. -/
def atoi (token : List UInt8) : ℤ := (strtol token).bmod (2 ^ 32)

/-- The inner loop of the reader: the tokens of one line, from a column on. -/
def readTokens (before : Grid) (line : ℕ) : ℕ → List (List UInt8) → Option (Grid × ℕ)
  | column, [] => some (before, column)
  | column, token :: rest =>
      if column > 39 then none
      else readTokens (store before line column (atoi token)) line (column + 1) rest

/-- The outer loop of the reader: the lines of the file, from line `line` on. -/
def readLines (before : Grid) (line maxCol : ℕ) : List (List UInt8) → Option (Grid × ℕ × ℕ)
  | [] => some (before, line, maxCol)
  | l :: rest =>
      if line > 40 then none
      else
        match readTokens before line 0 (tokens l) with
        | none => none
        | some (before, column) => readLines before (line + 1) (max maxCol column) rest

/-- What the reader leaves: `lineSize`, `columnSize` and `before`. -/
structure Board where
  lineSize : ℕ
  columnSize : ℕ
  before : Grid

/-- The reader, on the zero-initialised `before`. -/
def reader (file : List UInt8) : Option Board :=
  (readLines (fun _ => 0) 0 0 (getlines file)).map fun (before, line, maxCol) =>
    { lineSize := line - 1, columnSize := maxCol, before := before }

/-- Nothing has been stored outside the lines before `line` and the columns
before `maxCol`. -/
def Blank (before : Grid) (line maxCol : ℕ) : Prop :=
  ∀ i j : ℤ, 0 ≤ j → j < 40 → (i < 0 ∨ line ≤ i ∨ maxCol ≤ j) → cell before i j = 0

theorem Blank.mono {before : Grid} {line line' maxCol maxCol' : ℕ} (h : Blank before line maxCol)
    (hline : line ≤ line') (hcol : maxCol ≤ maxCol') : Blank before line' maxCol' :=
  fun i j hj hj' hout => h i j hj hj' (by omega)

/-- The tokens of a line are stored in that line. -/
theorem readTokens_spec {before before' : Grid} {line column column' maxCol : ℕ}
    {ts : List (List UInt8)} (hcolumn : column ≤ 40)
    (hblank : Blank before (line + 1) (max maxCol column))
    (h : readTokens before line column ts = some (before', column')) :
    column' ≤ 40 ∧ Blank before' (line + 1) (max maxCol column') := by
  induction ts generalizing before column with
  | nil =>
      obtain ⟨rfl, rfl⟩ := Prod.mk.inj (Option.some.inj h)
      exact ⟨hcolumn, hblank⟩
  | cons token rest ih =>
      simp only [readTokens] at h
      split at h
      · contradiction
      · rename_i hlt
        refine ih (by omega) ?_ h
        intro i j hj hj' hout
        rw [cell_store_of_ne _ _ (by omega) (by omega) hj hj' (by omega)]
        exact hblank i j hj hj' (by omega)

/-- The reader stores nothing below the last line and right of the last column. -/
theorem readLines_spec {before before' : Grid} {line line' maxCol maxCol' : ℕ}
    {ls : List (List UInt8)} (hline : line ≤ 41) (hmax : maxCol ≤ 40)
    (hblank : Blank before line maxCol)
    (h : readLines before line maxCol ls = some (before', line', maxCol')) :
    line' ≤ 41 ∧ maxCol' ≤ 40 ∧ Blank before' line' maxCol' := by
  induction ls generalizing before line maxCol with
  | nil =>
      obtain ⟨rfl, hrest⟩ := Prod.mk.inj (Option.some.inj h)
      obtain ⟨rfl, rfl⟩ := Prod.mk.inj hrest
      exact ⟨hline, hmax, hblank⟩
  | cons l rest ih =>
      simp only [readLines] at h
      split at h
      · contradiction
      · split at h
        · contradiction
        · rename_i hread
          obtain ⟨hcol, hblank'⟩ := readTokens_spec (Nat.zero_le _)
            (hblank.mono (Nat.le_succ _) (Nat.le_max_left _ _)) hread
          exact ih (by omega) (by omega) hblank' h

/-- The board of an accepted file. -/
theorem reader_spec {file : List UInt8} {b : Board} (h : reader file = some b) :
    b.lineSize ≤ 40 ∧ b.columnSize ≤ 40 ∧ Blank b.before (b.lineSize + 1) b.columnSize := by
  obtain ⟨⟨before, line, maxCol⟩, hread, rfl⟩ := Option.map_eq_some_iff.mp h
  obtain ⟨hline, hmax, hblank⟩ := readLines_spec (Nat.zero_le _) (Nat.zero_le _)
    (fun i j _ _ _ => by simp [cell]) hread
  exact ⟨by dsimp only; omega, hmax, hblank.mono (by dsimp only; omega) (le_refl _)⟩

end Life

end OperatingSystems
