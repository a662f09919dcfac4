import OperatingSystems.Shell.Argv

/-!
# Spaces around a line

What `shellMode` makes of a line: the branch it takes, the strings it puts into
`argvNew` and the value of `isBackground`. The words of a line do not depend on the
spaces around it, but the other two readings do. The test for `&` looks at the very
last character, and the test for `exit` compares the whole line, where those for
`cd` and `jobs` compare the first word.
-/

namespace OperatingSystems

namespace Shell

open OperatingSystems

/-- The branches of an iteration. -/
inductive Branch where
  | ignored
  | exit
  | cd
  | jobs
  | external
  deriving DecidableEq, Repr

/-- How a line is treated. `argvNew` holds the strings before the NULL, and nothing
if it is not filled. -/
structure Treatment where
  branch : Branch
  argvNew : Option (List (List Char))
  isBackground : Bool
  deriving DecidableEq, Repr

section Code

variable (inStr : List Char)

/-- An iteration of the loop, from `shellLineSetup` on. -/
def interpret (isBackground : Bool) : Treatment where
  branch :=
    match shellLineSetup inStr with
    | none => .ignored
    | some argvNew =>
        if inStr = "exit".toList then .exit
        else if argvNew.head? = some "cd".toList then .cd
        else if argvNew.head? = some "jobs".toList then .jobs
        else .external
  argvNew := shellLineSetup inStr
  isBackground := isBackground

/-- An iteration of the loop, after `getline`; none if it throws. -/
def treat : Option Treatment :=
  match at? inStr (inStr.length - 1) with
  | none => none
  | some c =>
      if c = '&' then some (interpret inStr.dropLast true)
      else some (interpret inStr false)

/-- The line with spaces added before and after it. -/
def padded (before after : ℕ) : List Char :=
  List.replicate before ' ' ++ inStr ++ List.replicate after ' '

end Code

section Reading

variable {inStr : List Char}

theorem treat_concat (l : List Char) (c : Char) :
    treat (l ++ [c]) =
      some (if c = '&' then interpret l true else interpret (l ++ [c]) false) := by
  simp only [treat, at?_concat, List.dropLast_concat]
  split <;> rfl

/-- What `readLine` gives for a line. -/
def Treatment.reading (t : Treatment) (processName : String) : Reading :=
  match t.branch with
  | .ignored => .ignored
  | .exit => .command .exit
  | .cd => .command .cd
  | .jobs => .command .jobs
  | .external => if t.isBackground then .command (.background processName) else .command .foreground

theorem dispatch_eq (inStr : List Char) (isBackground : Bool) :
    dispatch inStr isBackground =
      (interpret inStr isBackground).reading (String.ofList inStr) := by
  unfold dispatch interpret Treatment.reading
  cases shellLineSetup inStr with
  | none => rfl
  | some argvNew =>
      dsimp only
      by_cases hexit : inStr = "exit".toList
      · rw [if_pos hexit, if_pos hexit]
      · rw [if_neg hexit, if_neg hexit]
        by_cases hcd : argvNew.head? = some "cd".toList
        · rw [if_pos hcd, if_pos hcd]
        · rw [if_neg hcd, if_neg hcd]
          by_cases hjobs : argvNew.head? = some "jobs".toList
          · rw [if_pos hjobs, if_pos hjobs]
          · rw [if_neg hjobs, if_neg hjobs]
            cases isBackground <;> rfl

/-- A line is read as it is treated. -/
theorem readLine_eq (l : List Char) (c : Char) :
    ∃ t, treat (l ++ [c]) = some t ∧
      readLine (l ++ [c]) =
        t.reading (String.ofList (if c = '&' then l else l ++ [c])) := by
  rw [treat_concat, readLine_concat]
  split
  · exact ⟨_, rfl, dispatch_eq l true⟩
  · exact ⟨_, rfl, dispatch_eq (l ++ [c]) false⟩

end Reading

section Spaces

open Argv

variable {inStr : List Char}

theorem wordsIn_replicate_append (n : ℕ) (l : List Char) :
    wordsIn (List.replicate n ' ' ++ l) = wordsIn l := by
  induction n with
  | zero => rfl
  | succ n ih => rw [List.replicate_succ, List.cons_append, wordsIn_space_cons, ih]

theorem wordsIn_append_replicate (l : List Char) (n : ℕ) :
    wordsIn (l ++ List.replicate n ' ') = wordsIn l := by
  cases n with
  | zero => rw [List.replicate_zero, List.append_nil]
  | succ n =>
      have hspaces := wordsIn_replicate_append n []
      rw [List.append_nil] at hspaces
      rw [List.replicate_succ, wordsIn_append_space, hspaces]
      exact List.append_nil _

theorem cStr_replicate_append (n : ℕ) (l : List Char) :
    cStr (List.replicate n ' ' ++ l) = List.replicate n ' ' ++ cStr l := by
  refine List.takeWhile_append_of_pos fun c hc => ?_
  rw [List.eq_of_mem_replicate hc]
  decide

/-- Spaces around a line belong to no word. -/
theorem words_padded (inStr : List Char) (before after : ℕ) :
    words (padded inStr before after) = words inStr := by
  rw [words_eq, words_eq, padded, List.append_assoc, cStr_replicate_append,
    wordsIn_replicate_append, cStr, cStr, List.takeWhile_append]
  split
  · rename_i hlength
    have hall := (List.takeWhile_prefix _).eq_of_length hlength
    have hspaces := cStr_replicate_append after []
    rw [List.append_nil, cStr, cStr, List.takeWhile_nil, List.append_nil] at hspaces
    rw [hspaces, wordsIn_append_replicate, hall]
  · rfl

theorem interpret_iff {l l' : List Char} (hwords : words l' = words l)
    (hexit : l' ≠ "exit".toList) (isBackground : Bool) :
    interpret l' isBackground = interpret l isBackground ↔ l ≠ "exit".toList := by
  have hsetup : shellLineSetup l' = shellLineSetup l := by
    rw [shellLineSetup, shellLineSetup, hwords]
  constructor
  · rintro heq rfl
    have hpath : shellLineSetup "exit".toList = some ["/bin/exit".toList] := by decide
    have hbranch := congrArg Treatment.branch heq
    simp only [interpret, hsetup, hpath, if_neg hexit] at hbranch
    exact absurd hbranch (by decide)
  · intro hne
    rw [interpret, interpret, hsetup]
    simp only [if_neg hexit, if_neg hne]

theorem isExit_concat {l : List Char} {c : Char} :
    IsExit (l ++ [c]) ↔ if c = '&' then l = "exit".toList else l ++ [c] = "exit".toList := by
  rw [← readLine_exit_iff, readLine_concat]
  split <;> exact dispatch_exit_iff

/-- Without spaces behind it a line keeps its last character. -/
theorem padded_concat (l : List Char) (c : Char) (before : ℕ) :
    padded (l ++ [c]) before 0 = padded l before 0 ++ [c] := by
  simp [padded]

theorem padded_succ (l : List Char) (before after : ℕ) :
    padded l before (after + 1) = padded l before after ++ [' '] := by
  rw [padded, List.replicate_succ', ← List.append_assoc]
  rfl

/-- With a space in front a line is not `exit`. -/
theorem padded_ne_exit (l : List Char) (before after : ℕ) :
    padded l (before + 1) after ≠ "exit".toList := by
  intro h
  have hhead : (padded l (before + 1) after).head? = some ' ' := by
    rw [padded, List.replicate_succ]
    rfl
  rw [h] at hhead
  exact absurd hhead (by decide)

theorem concat_space_ne_exit (l : List Char) : l ++ [' '] ≠ "exit".toList := by
  intro h
  have hlast := List.getLast?_concat (a := ' ') (l := l)
  rw [h] at hlast
  exact absurd hlast (by decide)

end Spaces

/-- Spaces around a line leave its treatment alone just when there are none, or the
line is not `exit` and no spaces come behind an `&`. -/
theorem treat_padded_iff (inStr : List Char) (before after : ℕ) (h : inStr ≠ []) :
    treat (padded inStr before after) = treat inStr ↔
      (before = 0 ∧ after = 0) ∨
        (¬ IsExit inStr ∧ (after = 0 ∨ inStr.getLast? ≠ some '&')) := by
  obtain ⟨l, c, rfl⟩ := (List.eq_nil_or_concat' inStr).resolve_left h
  rw [List.getLast?_concat, isExit_concat, treat_concat]
  cases after with
  | zero =>
      cases before with
      | zero => simp [padded, treat_concat]
      | succ before =>
          rw [padded_concat, treat_concat, Option.some_inj]
          by_cases hc : c = '&'
          · rw [if_pos hc, if_pos hc, if_pos hc,
              interpret_iff (words_padded l _ _) (padded_ne_exit l before 0)]
            simp
          · rw [if_neg hc, if_neg hc, if_neg hc, ← padded_concat,
              interpret_iff (words_padded (l ++ [c]) _ _) (padded_ne_exit (l ++ [c]) before 0)]
            simp
  | succ after =>
      rw [padded_succ, treat_concat, if_neg (by decide), Option.some_inj]
      by_cases hc : c = '&'
      · rw [if_pos hc, if_pos hc, hc]
        refine iff_of_false (fun heq => ?_) (by simp)
        exact absurd (congrArg Treatment.isBackground heq) Bool.false_ne_true
      · rw [if_neg hc, if_neg hc, ← padded_succ, interpret_iff (words_padded (l ++ [c]) _ _)
          (padded_succ (l ++ [c]) before after ▸ concat_space_ne_exit _)]
        simp [hc]

/-- The line `ls -l` with two spaces before and one behind. -/
theorem treat_padded_ls :
    treat (padded "ls -l".toList 2 1) = treat "ls -l".toList :=
  (treat_padded_iff "ls -l".toList 2 1 (by decide)).mpr (.inr (by decide))

/-- With a space before it, `exit` is run as a command, and with a space behind its `&`
a command is not run in the background. -/
theorem treat_padded_exit :
    treat (padded "exit".toList 1 0) ≠ treat "exit".toList ∧
      treat (padded "ls&".toList 0 1) ≠ treat "ls&".toList := by
  decide

end Shell

end OperatingSystems
