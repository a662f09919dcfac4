import OperatingSystems.Life.Format
import OperatingSystems.Life.Transcript

/-!
# Reading back a board that has been written

The lines that `printMatrix` writes are a board file: the numbers of a row are the
tokens of its line, and `atoi` gives back each `int`. The reader therefore accepts
such a file and stores the same cells.
-/

namespace OperatingSystems

namespace Life

open OperatingSystems.Output

section Numbers

/-- The code of a digit fits in a byte. -/
theorem toNat_byte {c : Char} (h : c.isDigit = true) :
    (UInt8.ofNat c.toNat).toNat = c.toNat ∧ 48 ≤ c.toNat ∧ c.toNat ≤ 57 := by
  obtain ⟨hlow, hhigh⟩ := Char.isDigit_iff_toNat.mp h
  have hlow : 48 ≤ c.toNat := hlow
  have hhigh : c.toNat ≤ 57 := hhigh
  refine ⟨?_, hlow, hhigh⟩
  rw [UInt8.toNat_ofNat']
  omega

theorem isDigit_byte {c : Char} (h : c.isDigit = true) :
    isDigit (UInt8.ofNat c.toNat) = true := by
  obtain ⟨hbyte, hlow, hhigh⟩ := toNat_byte h
  simp only [isDigit, Bool.and_eq_true, decide_eq_true_iff, UInt8.le_iff_toNat_le, hbyte]
  exact ⟨hlow, hhigh⟩

/-- A byte of a number is a digit. -/
theorem isDigit_of_mem_digits {n : ℕ} {c : UInt8} (h : c ∈ Output.digits n) :
    isDigit c = true := by
  obtain ⟨d, hd, rfl⟩ := List.mem_map.mp h
  exact isDigit_byte (Nat.isDigit_of_mem_toDigits (by decide) (le_refl 10) hd)

theorem foldl_bytes {l : List Char} (h : ∀ c ∈ l, c.isDigit = true) (n : ℕ) :
    (l.map fun c => UInt8.ofNat c.toNat).foldl (fun n c => 10 * n + (c.toNat - 48)) n =
      Nat.ofDigitChars 10 l n := by
  induction l generalizing n with
  | nil => rfl
  | cons c l ih =>
      rw [List.map_cons, List.foldl_cons, Nat.ofDigitChars_cons,
        ih fun d hd => h d (List.mem_cons_of_mem c hd), (toNat_byte (h c List.mem_cons_self)).1]
      rfl

/-- The digits of a number have its value. -/
theorem digits_digits (n : ℕ) : digits (Output.digits n) = n := by
  have hall : (Output.digits n).takeWhile isDigit = Output.digits n :=
    List.takeWhile_eq_self_iff.mpr fun c hc => isDigit_of_mem_digits hc
  rw [digits, hall, Output.digits, foldl_bytes fun c hc =>
    Nat.isDigit_of_mem_toDigits (by decide) (le_refl 10) hc]
  exact Nat.ofDigitChars_ten_toDigits

/-- A number begins with a digit. -/
theorem exists_digits_cons (n : ℕ) :
    ∃ c rest, Output.digits n = c :: rest ∧ isDigit c = true := by
  have hne : Output.digits n ≠ [] := by simp [Output.digits, Nat.toDigits_ne_nil]
  obtain ⟨c, rest, h⟩ := List.exists_cons_of_ne_nil hne
  exact ⟨c, rest, h, isDigit_of_mem_digits (h ▸ List.mem_cons_self)⟩

/-- A digit is neither a sign nor white space. -/
theorem not_sign_of_isDigit {c : UInt8} (h : isDigit c = true) :
    c ≠ 45 ∧ c ≠ 43 ∧ isSpace c = false := by
  simp only [isDigit, Bool.and_eq_true, decide_eq_true_iff, UInt8.le_iff_toNat_le] at h
  obtain ⟨hlow, hhigh⟩ := h
  have hlow : 48 ≤ c.toNat := hlow
  have hne : ∀ d : UInt8, d.toNat < 48 → c ≠ d := by
    rintro d hd rfl
    omega
  refine ⟨hne 45 (by decide), hne 43 (by decide), ?_⟩
  simp only [isSpace, hne 32 (by decide), decide_false, Bool.false_or, Bool.and_eq_false_iff,
    decide_eq_false_iff_not, UInt8.le_iff_toNat_le]
  right
  change ¬ c.toNat ≤ 13
  omega

/-- `strtol` reads a number back that does not saturate it. -/
theorem strtol_decimal {n : ℤ} (hlow : -2 ^ 63 ≤ n) (hhigh : n < 2 ^ 63) :
    strtol (decimal n) = n := by
  by_cases hneg : n < 0
  · have hdrop : (decimal n).dropWhile isSpace = 45 :: Output.digits n.natAbs := by
      rw [decimal, if_pos hneg]
      rfl
    rw [strtol, hdrop]
    dsimp only
    rw [if_pos rfl, digits_digits]
    omega
  · obtain ⟨c, rest, hdigits, hc⟩ := exists_digits_cons n.natAbs
    obtain ⟨hminus, hplus, hspace⟩ := not_sign_of_isDigit hc
    have hdrop : (decimal n).dropWhile isSpace = c :: rest := by
      rw [decimal, if_neg hneg, List.nil_append, hdigits, List.dropWhile_cons, hspace]
      rfl
    rw [strtol, hdrop]
    dsimp only
    rw [if_neg hminus, if_neg hplus, ← hdigits, digits_digits]
    omega

/-- An `int`. -/
def IsInt (n : ℤ) : Prop := -2 ^ 31 ≤ n ∧ n < 2 ^ 31

/-- `atoi` reads an `int` back. -/
theorem atoi_decimal {n : ℤ} (h : IsInt n) : atoi (decimal n) = n := by
  obtain ⟨hlow, hhigh⟩ := h
  rw [atoi, strtol_decimal (by omega) (by omega)]
  exact Int.bmod_eq_of_le_mul_two (by omega) (by omega)

/-- A number can stand as a token of a line. -/
theorem decimal_token (n : ℤ) : decimal n ≠ [] ∧ ∀ c ∈ decimal n, delim c = false ∧ c ≠ 0 := by
  obtain ⟨d, rest, hdigits, -⟩ := exists_digits_cons n.natAbs
  refine ⟨by simp [decimal, hdigits], fun c hc => ?_⟩
  rcases List.mem_append.mp hc with hc | hc
  · split at hc
    · rw [List.mem_singleton] at hc
      subst hc
      decide
    · contradiction
  · have hdigit := isDigit_of_mem_digits hc
    simp only [isDigit, Bool.and_eq_true, decide_eq_true_iff, UInt8.le_iff_toNat_le] at hdigit
    have hlow : 48 ≤ c.toNat := hdigit.1
    have hne : ∀ d : UInt8, d.toNat < 48 → c ≠ d := by
      rintro d hd rfl
      omega
    refine ⟨?_, hne 0 (by decide)⟩
    simp [delim, hne 32 (by decide), hne 44 (by decide), hne 10 (by decide), hne 9 (by decide)]

end Numbers

section Rows

/-- The tokens of a line in which a blank follows every token. -/
theorem tokens_flatMap {ws : List (List UInt8)}
    (h : ∀ w ∈ ws, w ≠ [] ∧ ∀ c ∈ w, delim c = false ∧ c ≠ 0) :
    tokens (ws.flatMap fun w => w ++ [32]) = ws := by
  have hnul : (ws.flatMap fun w => w ++ [32]).takeWhile (· ≠ 0) =
      ws.flatMap fun w => w ++ [32] := by
    refine List.takeWhile_eq_self_iff.mpr fun c hc => ?_
    obtain ⟨w, hw, hc⟩ := List.mem_flatMap.mp hc
    rcases List.mem_append.mp hc with hc | hc
    · simpa using ((h w hw).2 c hc).2
    · rw [List.mem_singleton] at hc
      subst hc
      decide
  rw [tokens, hnul]
  clear hnul
  induction ws with
  | nil => rfl
  | cons w ws ih =>
      obtain ⟨hne, hletters⟩ := h w List.mem_cons_self
      rw [List.flatMap_cons, List.append_assoc, List.singleton_append,
        List.splitOnP_append_cons w _ rfl, List.filter_append,
        ih fun w' hw' => h w' (List.mem_cons_of_mem w hw'),
        List.splitOnP_eq_singleton fun c hc => by simp [(hletters c hc).1]]
      simp [hne]

/-- The numbers of a row. -/
def rowTokens (m : Grid) (line columns : ℕ) : List (List UInt8) :=
  (List.range columns).map fun column : ℕ => decimal (cell m line column)

theorem rowText_eq (m : Grid) (line columns : ℕ) :
    rowText m line columns = (rowTokens m line columns).flatMap fun w => w ++ [32] := by
  rw [rowTokens, List.flatMap_map]
  rfl

theorem tokens_rowText (m : Grid) (line columns : ℕ) :
    tokens (rowText m line columns) = rowTokens m line columns := by
  rw [rowText_eq]
  refine tokens_flatMap fun w hw => ?_
  obtain ⟨column, -, rfl⟩ := List.mem_map.mp hw
  exact decimal_token _

theorem isLine_rowText (m : Grid) (line columns : ℕ) : IsLine (rowText m line columns) := by
  have hall : ∀ c ∈ rowText m line columns, c ≠ 10 ∧ c ≠ 0 := by
    intro c hc
    obtain ⟨column, -, hc⟩ := List.mem_flatMap.mp hc
    rcases List.mem_append.mp hc with hc | hc
    · obtain ⟨hdelim, hzero⟩ := (decimal_token _).2 c hc
      refine ⟨?_, hzero⟩
      rintro rfl
      contradiction
    · rw [List.mem_singleton] at hc
      subst hc
      decide
  exact ⟨fun h => (hall 10 h).1 rfl, fun h => (hall 0 h).2 rfl⟩

end Rows

section Boards

variable {lineSize columnSize : ℕ} {m : Grid}

/-- The lines of a board. -/
def matrixLines (lineSize columnSize : ℕ) (m : Grid) : List (List UInt8) :=
  (List.range lineSize).map fun line => rowText m line columnSize

theorem matrixText_eq (lineSize columnSize : ℕ) (m : Grid) :
    matrixText lineSize columnSize m = text (matrixLines lineSize columnSize m) := by
  rw [text, matrixLines, List.flatMap_map]
  rfl

theorem isLine_of_mem_matrixLines {l : List UInt8} (h : l ∈ matrixLines lineSize columnSize m) :
    IsLine l := by
  obtain ⟨line, -, rfl⟩ := List.mem_map.mp h
  exact isLine_rowText m line columnSize

/-- The line after the last newline is empty. -/
theorem cell_after_text {lines : List (List UInt8)} (hlines : ∀ l ∈ lines, IsLine l)
    (hlen : lines.length ≤ 40) (htokens : ∀ l ∈ lines, (tokens l).length ≤ 40) {j : ℕ}
    (hj : j < 40) :
    cell ((writes (text lines)).foldl Write.apply fun _ => 0) lines.length j = 0 := by
  have htokens' : ∀ l ∈ lines ++ [[]], (tokens l).length ≤ 40 :=
    List.forall_mem_append.mpr ⟨htokens, List.forall_mem_singleton.mpr (Nat.zero_le 40)⟩
  have hlen' : 0 + (lines ++ [[]]).length ≤ 41 := by
    rw [List.length_append, List.length_singleton]
    omega
  have hcell := cell_logLines 0 0 (fun _ => 0) (i := lines.length) hlen' htokens' hj
  rw [if_pos (Nat.zero_le _), Nat.sub_zero, List.getElem?_append_right (le_refl _),
    Nat.sub_self] at hcell
  rw [writes, getlines_text hlines, hcell]
  rfl

theorem length_tokens_rowText (line : ℕ) :
    (tokens (rowText m line columnSize)).length = columnSize := by
  rw [tokens_rowText, rowTokens, List.length_map, List.length_range]

theorem widest_matrixLines (hlines : 1 ≤ lineSize) :
    widest (matrixLines lineSize columnSize m) = columnSize := by
  have hlengths : (matrixLines lineSize columnSize m).map (fun l => (tokens l).length) =
      List.replicate lineSize columnSize := by
    refine List.eq_replicate_iff.mpr ⟨by simp [matrixLines], fun n hn => ?_⟩
    obtain ⟨l, hl, rfl⟩ := List.mem_map.mp hn
    obtain ⟨line, -, rfl⟩ := List.mem_map.mp hl
    exact length_tokens_rowText line
  obtain ⟨n, rfl⟩ : ∃ n, lineSize = n + 1 := ⟨lineSize - 1, by omega⟩
  rw [widest, hlengths]
  clear hlengths hlines
  induction n with
  | zero => simp
  | succ n ih =>
      rw [List.replicate_succ, List.foldr_cons, ih]
      exact max_self _

/-- The reader reads back a board that has been written: the same sizes and the same
cells, and zero everywhere else. -/
theorem reader_matrixText (hlines : 1 ≤ lineSize) (hlines' : lineSize ≤ 40)
    (hcolumns : columnSize ≤ 40)
    (hint : ∀ i j : ℕ, i < lineSize → j < columnSize → IsInt (cell m i j)) :
    ∃ b, reader (matrixText lineSize columnSize m) = some b ∧ b.lineSize = lineSize ∧
      b.columnSize = columnSize ∧ SameBoard lineSize columnSize b.before m ∧
        ∀ k, ¬ OnBoard lineSize columnSize k → b.before k = 0 := by
  have hall : ∀ l ∈ matrixLines lineSize columnSize m, IsLine l :=
    fun l hl => isLine_of_mem_matrixLines hl
  have hlen : (matrixLines lineSize columnSize m).length = lineSize := by simp [matrixLines]
  have htokens : ∀ l ∈ matrixLines lineSize columnSize m, (tokens l).length ≤ 40 := by
    intro l hl
    obtain ⟨line, -, rfl⟩ := List.mem_map.mp hl
    rwa [length_tokens_rowText]
  have hread := reader_text hall
  rw [if_pos ⟨by rwa [hlen], htokens⟩, hlen, widest_matrixLines hlines, ← matrixText_eq] at hread
  refine ⟨_, hread, rfl, rfl, fun i j hi hj => ?_, fun k hk => ?_⟩
  · have hline : (matrixLines lineSize columnSize m)[i]? = some (rowText m i columnSize) := by
      simp [matrixLines, hi]
    have hcell := cell_text hall (by rwa [hlen]) htokens hline (j := j) (by omega)
    rw [tokens_rowText] at hcell
    rw [matrixText_eq]
    simpa [rowTokens, hj, atoi_decimal (hint i j hi hj)] using hcell
  · obtain ⟨-, -, hblank⟩ := reader_spec hread
    have haddr : k / maxGrid * maxGrid + k % maxGrid = k := Int.ediv_mul_add_emod k maxGrid
    have hmod : 0 ≤ k % maxGrid := Int.emod_nonneg _ (by decide)
    have hmod' : k % maxGrid < 40 := Int.emod_lt_of_pos _ (by decide)
    rw [← haddr]
    change cell _ (k / maxGrid) (k % maxGrid) = 0
    by_cases hafter : k / maxGrid = lineSize
    · have hcell := cell_after_text hall (by rwa [hlen]) htokens (j := (k % maxGrid).toNat)
        (by omega)
      rw [hlen, ← matrixText_eq, Int.toNat_of_nonneg hmod] at hcell
      rw [hafter]
      exact hcell
    · refine hblank _ _ hmod hmod' ?_
      unfold OnBoard at hk
      dsimp only
      omega

/-- Boards with the same cells are written the same. -/
theorem matrixText_congr {m' : Grid} (h : SameBoard lineSize columnSize m m') :
    matrixText lineSize columnSize m = matrixText lineSize columnSize m' := by
  refine List.flatMap_congr fun i hi => ?_
  have hrow : rowText m i columnSize = rowText m' i columnSize := by
    refine List.flatMap_congr fun j hj => ?_
    rw [h i j (List.mem_range.mp hi) (List.mem_range.mp hj)]
  rw [hrow]

end Boards

section RoundTrip

theorem isInt_atoi (token : List UInt8) : IsInt (atoi token) := by
  have hle := Int.le_bmod (x := strtol token) (m := 2 ^ 32) (by decide)
  have hlt := Int.bmod_lt (x := strtol token) (m := 2 ^ 32) (by decide)
  simp only [IsInt, atoi]
  omega

theorem isInt_of_mem_logTokens {line column : ℕ} {ts : List (List UInt8)} {w : Write}
    (h : w ∈ (logTokens line column ts).1) : IsInt w.value := by
  induction ts generalizing column with
  | nil => simp [logTokens] at h
  | cons token rest ih =>
      rw [logTokens] at h
      split at h
      · simp at h
      · rcases List.mem_cons.mp h with rfl | h
        · exact isInt_atoi token
        · exact ih h

/-- What the reader stores are values of `atoi`. -/
theorem isInt_of_mem_logLines {line maxCol : ℕ} {ls : List (List UInt8)} {w : Write}
    (h : w ∈ (logLines line maxCol ls).1) : IsInt w.value := by
  induction ls generalizing line maxCol with
  | nil => simp [logLines] at h
  | cons l rest ih =>
      by_cases hline : line ≤ 40
      · rw [writes_logLines_cons hline] at h
        rcases List.mem_append.mp h with h | h
        · exact isInt_of_mem_logTokens h
        · split at h
          · exact ih h
          · simp at h
      · rw [logLines_of_gt (by omega)] at h
        simp at h

theorem isInt_foldl {ws : List Write} (h : ∀ w ∈ ws, IsInt w.value) {m : Grid}
    (hm : ∀ k, IsInt (m k)) (k : ℤ) : IsInt (ws.foldl Write.apply m k) := by
  induction ws generalizing m with
  | nil => exact hm k
  | cons w ws ih =>
      refine ih (fun w' hw' => h w' (List.mem_cons_of_mem w hw')) fun k' => ?_
      simp only [Write.apply, store, Function.update_apply]
      split
      · exact h w List.mem_cons_self
      · exact hm k'

/-- The cells of an accepted board are `int`s. -/
theorem isInt_of_reader {file : List UInt8} {b : Board} (h : reader file = some b) (k : ℤ) :
    IsInt (b.before k) := by
  rw [reader_eq_log] at h
  obtain ⟨⟨line, maxCol⟩, -, rfl⟩ := Option.map_eq_some_iff.mp h
  exact isInt_foldl (fun w hw => isInt_of_mem_logLines hw) (fun _ => by simp [IsInt]) k

/-- An accepted board with a line that is written by `printMatrix` is accepted again,
with the same sizes and the same cells, and is then written the same. -/
theorem board_roundTrip {file : List UInt8} {b : Board} (h : reader file = some b)
    (hlines : 1 ≤ b.lineSize) :
    ∃ b', reader (matrixText b.lineSize b.columnSize b.before) = some b' ∧
      b'.lineSize = b.lineSize ∧ b'.columnSize = b.columnSize ∧
      SameBoard b.lineSize b.columnSize b'.before b.before ∧
      matrixText b'.lineSize b'.columnSize b'.before =
        matrixText b.lineSize b.columnSize b.before := by
  obtain ⟨hlines', hcolumns, -⟩ := reader_spec h
  obtain ⟨b', hread, hline, hcolumn, hsame, -⟩ := reader_matrixText hlines hlines' hcolumns
    fun i j _ _ => isInt_of_reader h _
  refine ⟨b', hread, hline, hcolumn, hsame, ?_⟩
  rw [hline, hcolumn]
  exact matrixText_congr hsame

/-- The ragged file of three lines is written with its blanks filled by zeros. -/
theorem board_roundTrip_threeLines : ∃ b b', reader (text threeLines) = some b ∧
    matrixText 3 2 b.before = ascii "1 1 \n0 0 \n1 0 \n" ∧
    reader (matrixText 3 2 b.before) = some b' ∧ SameBoard 3 2 b'.before b.before := by
  have hread : (reader (text threeLines)).map
      (fun b => (b.lineSize, b.columnSize, matrixText 3 2 b.before)) =
        some (3, 2, ascii "1 1 \n0 0 \n1 0 \n") := by decide
  obtain ⟨b, hb, hsizes⟩ := Option.map_eq_some_iff.mp hread
  obtain ⟨hline, hrest⟩ := Prod.mk.inj hsizes
  obtain ⟨hcolumn, htext⟩ := Prod.mk.inj hrest
  obtain ⟨b', hread', -, -, hsame, -⟩ := board_roundTrip hb (by rw [hline]; decide)
  rw [hline, hcolumn] at hread' hsame
  exact ⟨b, b', hb, htext, hread', hsame⟩

end RoundTrip

end Life

end OperatingSystems
