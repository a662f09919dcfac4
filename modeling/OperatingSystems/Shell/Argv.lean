import Mathlib.Data.Int.Range
import OperatingSystems.Patch.Block
import OperatingSystems.Run.Pieces
import OperatingSystems.Shell.Lines

/-!
# The argument vector

`shellLineSetup` and `commandLineSetup` with the entries of `argvNew` that they
write. The first calls `strtok`, which keeps what is left of the string from one
call to the next, and stores what it returns before it is tested; the second copies
`argv`. Both write a block of strings and a NULL behind it.

The block is as long as the line or the command needs. The callers' arrays have five
slots, which is enough for four strings and the NULL.
-/

namespace OperatingSystems

namespace Shell

namespace Argv

open OperatingSystems

/-- An entry of `argvNew`, none for NULL. -/
abbrev Slot : Type := Option (List Char)

/-- What a call of `shellLineSetup` returns and writes. -/
structure Call where
  result : ℤ
  writes : List (ℤ × Slot)
  deriving DecidableEq, Repr

section Code

/-- A call of `strtok` on what is left of the string: the part that it finds, and
what is then left. -/
def strtok (rest : List Char) : Option (List Char × List Char) :=
  let start := rest.dropWhile (· = ' ')
  if start = [] then none
  else some (start.takeWhile (· ≠ ' '), (start.dropWhile (· ≠ ' ')).tail)

theorem length_of_strtok {rest part rest' : List Char} (h : strtok rest = some (part, rest')) :
    rest'.length < rest.length := by
  dsimp only [strtok] at h
  split at h
  · contradiction
  · rename_i hstart
    have hpos := List.length_pos_of_ne_nil hstart
    have hle := (List.dropWhile_suffix (l := rest) (fun c => decide (c = ' '))).length_le
    have hle' := (List.dropWhile_suffix (l := rest.dropWhile fun c => decide (c = ' '))
      (fun c => decide (c ≠ ' '))).length_le
    obtain ⟨-, rfl⟩ := Prod.mk.inj (Option.some.inj h)
    rw [List.length_tail]
    omega

/-- The loop of `shellLineSetup` from the entry `i` on, where `part` is not NULL. -/
def fillFrom (i : ℤ) (rest : List Char) : List (ℤ × Slot) :=
  match h : strtok rest with
  | none => [(i, none)]
  | some (part, rest') => (i, some part) :: fillFrom (i + 1) rest'
termination_by rest.length
decreasing_by exact length_of_strtok h

/-- `shellLineSetup`, on the copy of the line that `strdup` makes. -/
def shellLineSetup (inStr : List Char) : Call :=
  match strtok (cStr inStr) with
  | none => { result := 1, writes := [] }
  | some (part, rest) =>
      let filePath :=
        if part = "cd".toList then part
        else if part = "jobs".toList then part
        else "/bin/".toList ++ part
      { result := 0, writes := (0, some filePath) :: fillFrom 1 rest }

/-- The entries that `commandLineSetup` writes. -/
def commandLineSetup (argc : ℤ) (argv : ℤ → List Char) : List (ℤ × Slot) :=
  let filePath := argv 1
  (0, some filePath) :: (Int.range 1 (argc - 1)).map (fun i => (i, some (argv (i + 1)))) ++
    [(argc - 1, none)]

end Code

section Words

/-- The words in a C string. -/
def wordsIn (l : List Char) : List (List Char) := (l.splitOnP (· = ' ')).filter (· ≠ [])

theorem words_eq (inStr : List Char) : words inStr = wordsIn (cStr inStr) := rfl

theorem wordsIn_append_space (x y : List Char) :
    wordsIn (x ++ ' ' :: y) = wordsIn x ++ wordsIn y := by
  rw [wordsIn, List.splitOnP_append_cons x y (by decide), List.filter_append]
  rfl

theorem wordsIn_space_cons (l : List Char) : wordsIn (' ' :: l) = wordsIn l :=
  wordsIn_append_space [] l

/-- Spaces in front belong to no word. -/
theorem wordsIn_dropWhile (l : List Char) : wordsIn (l.dropWhile (· = ' ')) = wordsIn l := by
  induction l with
  | nil => rfl
  | cons c l ih =>
      rw [List.dropWhile_cons]
      split
      · rename_i hc
        rw [of_decide_eq_true hc, wordsIn_space_cons, ih]
      · rfl

/-- A string without spaces is a word. -/
theorem wordsIn_singleton {w : List Char} (hne : w ≠ []) (h : ∀ c ∈ w, c ≠ ' ') :
    wordsIn w = [w] := by
  rw [wordsIn, List.splitOnP_eq_singleton fun c hc => decide_eq_false (h c hc)]
  simp [hne]

/-- A letter that `dropWhile` stops at. -/
theorem eq_false_of_dropWhile {p : Char → Bool} {c : Char} {l l' : List Char}
    (h : l.dropWhile p = c :: l') : p c = false := by
  have hne : l.dropWhile p ≠ [] := h ▸ List.cons_ne_nil c l'
  have hhead := List.head_dropWhile_not p hne
  simpa only [h, List.head_cons] using hhead

/-- A string that begins with a letter of a word. -/
theorem wordsIn_of_letter {c : Char} (hc : c ≠ ' ') (l : List Char) :
    wordsIn (c :: l) = (c :: l).takeWhile (· ≠ ' ') ::
      wordsIn ((c :: l).dropWhile (· ≠ ' ')).tail := by
  have hword : wordsIn ((c :: l).takeWhile (· ≠ ' ')) = [(c :: l).takeWhile (· ≠ ' ')] := by
    refine wordsIn_singleton ?_ fun d hd => by simpa using List.mem_takeWhile_imp hd
    rw [List.takeWhile_cons_of_pos (by simpa using hc)]
    exact List.cons_ne_nil _ _
  have hall := List.takeWhile_append_dropWhile (p := fun c => decide (c ≠ ' ')) (l := c :: l)
  cases hrest : (c :: l).dropWhile (· ≠ ' ') with
  | nil =>
      rw [hrest, List.append_nil] at hall
      rw [hall] at hword ⊢
      exact hword
  | cons d y =>
      have hd : d = ' ' := by simpa using eq_false_of_dropWhile hrest
      rw [hrest, hd] at hall
      conv_lhs => rw [← hall]
      rw [wordsIn_append_space, hword]
      rfl

theorem wordsIn_of_strtok_none {rest : List Char} (h : strtok rest = none) :
    wordsIn rest = [] := by
  dsimp only [strtok] at h
  split at h
  · rename_i hstart
    rw [← wordsIn_dropWhile, hstart]
    rfl
  · contradiction

/-- `strtok` finds the first word and leaves the others. -/
theorem wordsIn_of_strtok_some {rest part rest' : List Char}
    (h : strtok rest = some (part, rest')) : wordsIn rest = part :: wordsIn rest' := by
  dsimp only [strtok] at h
  split at h
  · contradiction
  · rename_i hstart
    obtain ⟨rfl, rfl⟩ := Prod.mk.inj (Option.some.inj h)
    obtain ⟨c, l, hl⟩ := List.exists_cons_of_ne_nil hstart
    have hc : c ≠ ' ' := by simpa using eq_false_of_dropWhile hl
    rw [← wordsIn_dropWhile, hl, wordsIn_of_letter hc]

end Words

section Vector

/-- The entries for some strings and the NULL. -/
def vector (strings : List (List Char)) : List (ℤ × Slot) :=
  Patch.block 0 (strings.map some ++ [none])

/-- The loop writes the words that are left, and the NULL. -/
theorem fillFrom_eq (i : ℤ) (rest : List Char) :
    fillFrom i rest = Patch.block i ((wordsIn rest).map some ++ [none]) := by
  induction i, rest using fillFrom.induct with
  | case1 i rest h =>
      rw [fillFrom, wordsIn_of_strtok_none h]
      split
      · rfl
      · rename_i heq
        rw [h] at heq
        contradiction
  | case2 i rest part rest' h ih =>
      rw [fillFrom, wordsIn_of_strtok_some h]
      split
      · rename_i heq
        rw [h] at heq
        contradiction
      · rename_i heq
        rw [h] at heq
        obtain ⟨rfl, rfl⟩ := Prod.mk.inj (Option.some.inj heq)
        rw [ih]
        rfl

/-- The call writes the strings that `Shell.shellLineSetup` gives for the line. -/
theorem shellLineSetup_eq (inStr : List Char) :
    shellLineSetup inStr =
      match Shell.shellLineSetup inStr with
      | none => { result := 1, writes := [] }
      | some strings => { result := 0, writes := vector strings } := by
  rw [shellLineSetup, Shell.shellLineSetup, words_eq]
  cases h : strtok (cStr inStr) with
  | none => rw [wordsIn_of_strtok_none h]
  | some r =>
      obtain ⟨part, rest⟩ := r
      rw [wordsIn_of_strtok_some h]
      dsimp only
      rw [fillFrom_eq]
      rfl

theorem range_one (n : ℕ) : Int.range 1 (n + 1) = (List.range n).map fun r : ℕ => 1 + (r : ℤ) := by
  have hlength : ((n : ℤ) + 1 - 1).toNat = n := by omega
  rw [Int.range, hlength]

/-- The call writes the arguments of the program from the second on. -/
theorem commandLineSetup_eq {argc : ℤ} (h : 2 ≤ argc) (argv : ℤ → List Char) :
    commandLineSetup argc argv = vector ((Int.range 1 argc).map argv) := by
  obtain ⟨n, rfl⟩ : ∃ n : ℕ, argc = (n + 1 : ℕ) + 1 := ⟨(argc - 2).toNat, by omega⟩
  have hlast : ((n + 1 : ℕ) + 1 - 1 : ℤ) = n + 1 := by omega
  rw [commandLineSetup, vector, Patch.block_append, range_one, hlast, range_one, List.map_map,
    List.map_map, List.map_map, Patch.block_map_range, List.range_succ_eq_map, List.map_cons,
    List.map_map, List.length_map, List.length_cons, List.length_map, List.length_range]
  have hentries : ∀ r ∈ List.range n,
      ((fun i : ℤ => (i, some (argv (i + 1)))) ∘ fun r : ℕ => 1 + (r : ℤ)) r =
        ((fun r : ℕ => (0 + (r : ℤ), ((some ∘ argv) ∘ fun r : ℕ => 1 + (r : ℤ)) r)) ∘
          Nat.succ) r := fun r _ => by
    refine Prod.ext ?_ (congrArg (some ∘ argv) ?_)
    · change (1 : ℤ) + r = 0 + (r + 1 : ℕ)
      omega
    · change (1 : ℤ) + r + 1 = 1 + (r + 1 : ℕ)
      omega
  rw [List.map_congr_left hentries]
  simp [Patch.block]

/-- Nothing is written outside the callers' arrays. -/
def InBounds (writes : List (ℤ × Slot)) : Prop :=
  ∀ i ∈ Patch.keys writes, 0 ≤ i ∧ i ≤ 4

/-- Whatever the array holds before, a NULL is in it afterwards. -/
def Terminated (writes : List (ℤ × Slot)) : Prop :=
  ∀ argvNew : ℤ → Slot, ∃ i, 0 ≤ i ∧ i ≤ 4 ∧ Patch.apply writes argvNew i = none

theorem inBounds_vector_iff {strings : List (List Char)} :
    InBounds (vector strings) ↔ strings.length ≤ 4 := by
  have hkeys : ∀ i, i ∈ Patch.keys (vector strings) ↔ 0 ≤ i ∧ i ≤ strings.length := fun i => by
    rw [vector, Patch.mem_keys_block, List.length_append, List.length_map, List.length_singleton]
    omega
  unfold InBounds
  constructor
  · intro h
    have hlast := (h strings.length ((hkeys _).mpr (by omega))).2
    omega
  · intro h i hi
    have hi := (hkeys i).mp hi
    omega

/-- The entry behind the strings is NULL. -/
theorem apply_vector_length (strings : List (List Char)) (argvNew : ℤ → Slot) :
    Patch.apply (vector strings) argvNew strings.length = none := by
  have hentry : (strings.map some ++ [none])[strings.length]? = some none := by simp
  have h := Patch.apply_block (i := 0) hentry argvNew
  rwa [Int.zero_add] at h

/-- The entries before are the strings. -/
theorem apply_vector {strings : List (List Char)} {j : ℕ} (h : j < strings.length)
    (argvNew : ℤ → Slot) : Patch.apply (vector strings) argvNew j = some strings[j] := by
  have hentry : (strings.map some ++ [none])[j]? = some (some strings[j]) := by
    rw [List.getElem?_append_left (by rwa [List.length_map])]
    simp [h]
  have h := Patch.apply_block (i := 0) hentry argvNew
  rwa [Int.zero_add] at h

theorem apply_vector_of_outside {strings : List (List Char)} {i : ℤ}
    (h : i < 0 ∨ strings.length < i) (argvNew : ℤ → Slot) :
    Patch.apply (vector strings) argvNew i = argvNew i := by
  refine Patch.apply_block_of_outside ?_ argvNew
  rw [List.length_append, List.length_map, List.length_singleton]
  omega

theorem terminated_vector {strings : List (List Char)} (h : strings.length ≤ 4) :
    Terminated (vector strings) :=
  fun argvNew => ⟨strings.length, by omega, by omega, apply_vector_length strings argvNew⟩

end Vector

section Tokens

variable {inStr : List Char}

/-- The words of a line without a NUL are its maximal substrings without spaces. -/
theorem pieces_words (h : Char.ofNat 0 ∉ inStr) : Run.Pieces (· ≠ ' ') inStr (words inStr) := by
  have hcstr : cStr inStr = inStr :=
    List.takeWhile_eq_self_iff.mpr fun c hc => decide_eq_true fun heq => h (heq ▸ hc)
  have hruns := Run.pieces_runs (fun c : Char => decide (c ≠ ' ')) inStr
  have hspace : (fun c : Char => !decide (c ≠ ' ')) = fun c => decide (c = ' ') := by
    funext c
    simp
  rwa [Run.runs, hspace, ← wordsIn, ← hcstr, ← words_eq, hcstr] at hruns

theorem shellLineSetup_of_nil (h : words inStr = []) :
    shellLineSetup inStr = { result := 1, writes := [] } := by
  rw [shellLineSetup_eq, Shell.shellLineSetup, h]

/-- The first entry for a line with the first word `w`. -/
def filePath (w : List Char) : List Char :=
  if w = "cd".toList ∨ w = "jobs".toList then w else "/bin/".toList ++ w

theorem shellLineSetup_of_cons {w : List Char} {ws : List (List Char)}
    (h : words inStr = w :: ws) :
    shellLineSetup inStr = { result := 0, writes := vector (filePath w :: ws) } := by
  rw [shellLineSetup_eq, Shell.shellLineSetup, h]
  dsimp only
  rw [filePath]
  by_cases hcd : w = "cd".toList
  · rw [if_pos hcd, if_pos (.inl hcd)]
  · rw [if_neg hcd]
    by_cases hjobs : w = "jobs".toList
    · rw [if_pos hjobs, if_pos (.inr hjobs)]
    · rw [if_neg hjobs, if_neg (not_or.mpr ⟨hcd, hjobs⟩)]

end Tokens

/-- `shellLineSetup` on the words of a line: it returns 1 and writes nothing where
there is none, and otherwise fills `argvNew` with them, up to the NULL. -/
theorem shellLineSetup_pieces (inStr : List Char) (hnul : Char.ofNat 0 ∉ inStr) :
    ∃ ws, Run.Pieces (· ≠ ' ') inStr ws ∧
      ((shellLineSetup inStr).result = 1 ↔ ws = []) ∧
      ((shellLineSetup inStr).result = 1 → (shellLineSetup inStr).writes = []) ∧
      ((shellLineSetup inStr).result ≠ 1 → (shellLineSetup inStr).result = 0 ∧
        ∀ argvNew argvNew' : ℤ → Slot,
          argvNew' = Patch.apply (shellLineSetup inStr).writes argvNew →
          (∀ w, ws.head? = some w → argvNew' 0 =
            some (if w = "cd".toList ∨ w = "jobs".toList then w else "/bin/".toList ++ w)) ∧
          (∀ (j : ℕ) w, 1 ≤ j → ws[j]? = some w → argvNew' j = some w) ∧
          argvNew' ws.length = none ∧
          ∀ i : ℤ, i < 0 ∨ ws.length < i → argvNew' i = argvNew i) := by
  refine ⟨words inStr, pieces_words hnul, ?_⟩
  cases h : words inStr with
  | nil =>
      rw [shellLineSetup_of_nil h]
      exact ⟨by decide, fun _ => rfl, fun hne => absurd rfl hne⟩
  | cons w ws =>
      rw [shellLineSetup_of_cons h]
      refine ⟨by simp, fun hone => absurd hone (by simp), fun _ => ⟨rfl, ?_⟩⟩
      rintro argvNew _ rfl
      have hlength : (filePath w :: ws).length = (w :: ws).length := by simp
      refine ⟨fun v hv => ?_, fun j v hj hv => ?_, ?_, fun i hi => ?_⟩
      · obtain rfl := Option.some.inj hv
        exact apply_vector (Nat.succ_pos _) argvNew
      · obtain ⟨k, rfl⟩ : ∃ k, j = k + 1 := ⟨j - 1, by omega⟩
        obtain ⟨hk, rfl⟩ := List.getElem?_eq_some_iff.mp hv
        exact apply_vector (by rwa [hlength]) argvNew
      · rw [← hlength]
        exact apply_vector_length _ argvNew
      · rw [← hlength] at hi
        exact apply_vector_of_outside hi argvNew

/-- A line with spaces at its ends and several between, in an array of other strings. -/
theorem shellLineSetup_pieces_spaces :
    Patch.apply (shellLineSetup "  ls   -l ".toList).writes (fun _ => some []) 0 =
        some "/bin/ls".toList ∧
      Patch.apply (shellLineSetup "  ls   -l ".toList).writes (fun _ => some []) 1 =
        some "-l".toList ∧
      Patch.apply (shellLineSetup "  ls   -l ".toList).writes (fun _ => some []) 2 = none := by
  obtain ⟨ws, hpieces, hone, -, hfill⟩ := shellLineSetup_pieces "  ls   -l ".toList (by decide)
  have hws : ws = ["ls".toList, "-l".toList] :=
    (hpieces.unique (pieces_words (by decide))).trans (by decide)
  subst hws
  obtain ⟨hfirst, hrest, hnull, -⟩ :=
    (hfill (fun h => absurd (hone.mp h) (by decide))).2 (fun _ => some []) _ rfl
  exact ⟨hfirst _ rfl, hrest 1 _ (le_refl 1) rfl, hnull⟩

/-- Both calls keep to the five slots and leave a NULL there just when there are at
most four strings. -/
theorem inBounds_iff (inStr : List Char) (argc : ℤ) (argv : ℤ → List Char) (h : 2 ≤ argc) :
    ((InBounds (shellLineSetup inStr).writes ∧
        ((shellLineSetup inStr).result = 0 → Terminated (shellLineSetup inStr).writes)) ↔
      (words inStr).length ≤ 4) ∧
    ((InBounds (commandLineSetup argc argv) ∧ Terminated (commandLineSetup argc argv)) ↔
      argc ≤ 5) := by
  constructor
  · cases hwords : words inStr with
    | nil =>
        rw [shellLineSetup_of_nil hwords]
        exact iff_of_true ⟨fun i hi => absurd hi List.not_mem_nil, fun hzero => absurd hzero
          (by decide)⟩ (Nat.zero_le _)
    | cons w ws =>
        have hlength : (filePath w :: ws).length = (w :: ws).length := by simp
        rw [shellLineSetup_of_cons hwords, inBounds_vector_iff, hlength]
        exact ⟨fun hfits => hfits.1, fun hle => ⟨hle, fun _ =>
          terminated_vector (by rwa [hlength])⟩⟩
  · have hlength : ((Int.range 1 argc).map argv).length = (argc - 1).toNat := by
      rw [List.length_map, Int.range, List.length_map, List.length_range]
    rw [commandLineSetup_eq h, inBounds_vector_iff, hlength]
    refine ⟨fun hfits => by omega, fun hle => ⟨by omega, terminated_vector ?_⟩⟩
    omega

/-- The command line `doit ls -l`. -/
theorem inBounds_iff_ls :
    InBounds (shellLineSetup "ls -l".toList).writes ∧
      InBounds (commandLineSetup 3 fun i => if i = 1 then "ls".toList else "-l".toList) := by
  have h := inBounds_iff "ls -l".toList 3 (fun i => if i = 1 then "ls".toList else "-l".toList)
    (by decide)
  exact ⟨(h.1.mpr (by decide)).1, (h.2.mpr (by decide)).1⟩

/-- A line of five words has its NULL written behind the array, as has a command with
four arguments. -/
theorem not_inBounds_fiveWords :
    ¬ InBounds (shellLineSetup "echo a b c d".toList).writes ∧
      ¬ InBounds (commandLineSetup 6 fun _ => "a".toList) := by
  constructor
  · have hwords : words "echo a b c d".toList =
        "echo".toList :: ["a".toList, "b".toList, "c".toList, "d".toList] := by decide
    rw [shellLineSetup_of_cons hwords, inBounds_vector_iff]
    decide
  · rw [commandLineSetup_eq (by decide), inBounds_vector_iff]
    decide

end Argv

end Shell

end OperatingSystems
