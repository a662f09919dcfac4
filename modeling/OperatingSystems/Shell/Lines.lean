import OperatingSystems.Shell.Iteration

/-!
# The lines of the shell

`readLine` is what `shellMode` does with a line: the test for a trailing `&`,
`shellLineSetup`, and the choice of the branch. A `Session` is the shell with the
lines that are typed, where an exception of `inStr.at` ends it. Every line but the
empty one is read without an exception.

`shellLineSetup` stores the words in `argvNew`, which is taken to be long enough.
-/

namespace OperatingSystems

namespace Shell

open OperatingSystems

/-- What comes of a line. -/
inductive Reading where
  | throws
  | ignored
  | command (c : Command)
  deriving DecidableEq, Repr

section Code

variable (inStr : List Char)

/-- `inStr.at(i)`, which throws outside the string. For the empty string
`length() - 1` wraps around and is not an index. -/
def at? (i : ℤ) : Option Char := if 0 ≤ i then inStr[i.toNat]? else none

/-- `inStr.c_str()`, up to its first NUL. -/
def cStr : List Char := inStr.takeWhile (· ≠ Char.ofNat 0)

/-- The parts that `strtok` finds in the C string of a line. -/
def words : List (List Char) := ((cStr inStr).splitOnP (· = ' ')).filter (· ≠ [])

/-- `shellLineSetup`: the strings of `argvNew` before the NULL, and nothing where it
returns 1. -/
def shellLineSetup : Option (List (List Char)) :=
  match words inStr with
  | [] => none
  | part :: rest =>
      let filePath :=
        if part = "cd".toList then part
        else if part = "jobs".toList then part
        else "/bin/".toList ++ part
      some (filePath :: rest)

/-- An iteration of the loop, from `shellLineSetup` on. -/
def dispatch (isBackground : Bool) : Reading :=
  match shellLineSetup inStr with
  | none => .ignored
  | some argvNew =>
      .command
        (if inStr = "exit".toList then .exit
        else if argvNew.head? = some "cd".toList then .cd
        else if argvNew.head? = some "jobs".toList then .jobs
        else if isBackground then .background (String.ofList inStr)
        else .foreground)

/-- An iteration of the loop, after `getline`. -/
def readLine : Reading :=
  match at? inStr (inStr.length - 1) with
  | none => .throws
  | some c =>
      if c = '&' then dispatch inStr.dropLast true
      else dispatch inStr false

end Code

/-- The shell, and whether an exception has ended it. -/
structure Session where
  state : State
  threw : Bool

def session : Session where
  state := start
  threw := false

/-- A line is typed, where `pid` is the number that `fork` returns if it is called,
or something else happens. -/
inductive Entry where
  | line (inStr : List Char) (pid : ℕ)
  | other (e : Event)
  deriving DecidableEq, Repr

/-- The line that is typed. -/
def Entry.typed : Entry → List (List Char)
  | .line inStr _ => [inStr]
  | .other _ => []

/-- The lines typed in a run. -/
def typed (ts : List Entry) : List (List Char) := ts.flatMap Entry.typed

/-- The steps of the shell on the lines typed. -/
def sessionNext : Entry → Session → Option Session
  | .line inStr pid, s =>
      if s.threw = true ∨ s.state.pc ≠ .prompt then none
      else
        match readLine inStr with
        | .throws => some { s with threw := true }
        | .ignored => some s
        | .command c => (next (.enter c pid) s.state).map fun state => { s with state := state }
  | .other e, s =>
      if s.threw = true ∨ e.input ≠ [] then none
      else (next e s.state).map fun state => { s with state := state }

/-- The line is the command `exit`. -/
def IsExit (inStr : List Char) : Prop :=
  inStr = "exit".toList ∨ inStr = "exit&".toList

instance (inStr : List Char) : Decidable (IsExit inStr) :=
  inferInstanceAs (Decidable (_ ∨ _))

/-- There are only spaces in the C string. -/
def Blank (inStr : List Char) : Prop := ∀ c ∈ cStr inStr, c = ' '

/-- The line has no word, with or without an `&` at its end. -/
def Wordless (inStr : List Char) : Prop :=
  (inStr.getLast? ≠ some '&' ∧ Blank inStr) ∨ ∃ l, inStr = l ++ ['&'] ∧ Blank l

/-- What is asked of the state `s` that a run `ts` on the lines leads to: no
exception, an iteration that ends at the next prompt whichever steps are taken, and
no effect of a line without a word. -/
structure Session.Sound (lines : List (List Char)) (ts : List Entry) (s : Session) : Prop where
  noThrow : s.threw = false
  completes : ¬ AtExit s.state → ∃ n, ∀ us s', Transition.run sessionNext us s = some s' →
    typed us = [] → us.length ≤ n ∧ s'.threw = false ∧
      ((∀ e, sessionNext (.other e) s' = none) → s'.state.pc = .prompt)
  ignored : ∀ inStr pid s', typed ts ++ [inStr] <+: lines → Wordless inStr →
    sessionNext (.line inStr pid) s = some s' → s' = s

section Reading

variable {inStr : List Char} {isBackground : Bool}

@[simp] theorem readLine_nil : readLine [] = .throws := rfl

/-- The last character. -/
theorem at?_concat (l : List Char) (c : Char) :
    at? (l ++ [c]) ((l ++ [c]).length - 1) = some c := by
  have hindex : (((l ++ [c]).length : ℤ) - 1).toNat = l.length := by
    rw [List.length_append, List.length_singleton]
    omega
  rw [at?, if_pos (by simp), hindex]
  simp

theorem readLine_concat (l : List Char) (c : Char) :
    readLine (l ++ [c]) = if c = '&' then dispatch l true else dispatch (l ++ [c]) false := by
  simp only [readLine, at?_concat, List.dropLast_concat]

theorem dispatch_ne_throws : dispatch inStr isBackground ≠ .throws := by
  unfold dispatch
  split <;> simp

/-- A line that is not empty does not throw. -/
theorem readLine_ne_throws (h : inStr ≠ []) : readLine inStr ≠ .throws := by
  obtain ⟨l, c, rfl⟩ := (List.eq_nil_or_concat' inStr).resolve_left h
  rw [readLine_concat]
  split <;> exact dispatch_ne_throws

theorem dispatch_exit_iff :
    dispatch inStr isBackground = .command .exit ↔ inStr = "exit".toList := by
  constructor
  · intro h
    unfold dispatch at h
    split at h
    · contradiction
    · by_contra hne
      rw [if_neg hne] at h
      have h := Reading.command.inj h
      split at h
      · contradiction
      · split at h
        · contradiction
        · split at h <;> contradiction
  · rintro rfl
    cases isBackground <;> decide

theorem readLine_exit_iff : readLine inStr = .command .exit ↔ IsExit inStr := by
  unfold IsExit
  rcases List.eq_nil_or_concat' inStr with rfl | ⟨l, c, rfl⟩
  · decide
  · have hexit : "exit&".toList = "exit".toList ++ ['&'] := rfl
    have hlast : ∀ x : List Char, l ++ [c] = x → x.getLast? = some c := fun x hx => by
      rw [← hx, List.getLast?_concat]
    rw [readLine_concat, hexit]
    by_cases hc : c = '&'
    · subst hc
      have hno : l ++ ['&'] ≠ "exit".toList := fun heq => absurd (hlast _ heq) (by decide)
      rw [if_pos rfl, dispatch_exit_iff, List.append_left_inj, or_iff_right hno]
    · have hno : l ++ [c] ≠ "exit".toList ++ ['&'] := fun heq =>
        hc (Option.some.inj ((hlast _ heq).symm.trans List.getLast?_concat))
      rw [if_neg hc, dispatch_exit_iff, or_iff_left hno]

theorem words_of_blank (h : Blank inStr) : words inStr = [] := by
  unfold Blank at h
  rw [words]
  generalize cStr inStr = l at h ⊢
  induction l with
  | nil => rfl
  | cons c l ih =>
      have hc : c = ' ' := h c List.mem_cons_self
      have ih := ih fun d hd => h d (List.mem_cons_of_mem _ hd)
      rw [List.splitOnP_cons_eq_if_modifyHead, if_pos (by simp [hc]),
        List.filter_cons_of_neg (by decide)]
      exact ih

theorem dispatch_of_blank (h : Blank inStr) : dispatch inStr isBackground = .ignored := by
  rw [dispatch, shellLineSetup, words_of_blank h]

/-- A line without a word is ignored, unless it is empty. -/
theorem readLine_wordless (h : Wordless inStr) (hne : inStr ≠ []) :
    readLine inStr = .ignored := by
  obtain ⟨l, c, rfl⟩ := (List.eq_nil_or_concat' inStr).resolve_left hne
  rw [readLine_concat]
  rcases h with ⟨hlast, hblank⟩ | ⟨l', heq, hblank⟩
  · have hc : c ≠ '&' := fun hc => hlast (by rw [List.getLast?_concat, hc])
    rw [if_neg hc, dispatch_of_blank hblank]
  · obtain ⟨rfl, hc⟩ := List.append_inj' heq rfl
    rw [if_pos (List.singleton_inj.mp hc), dispatch_of_blank hblank]

end Reading

section Run

variable {s s' : Session} {lines : List (List Char)} {ts us : List Entry}

theorem typed_append (ts us : List Entry) : typed (ts ++ us) = typed ts ++ typed us :=
  List.flatMap_append

theorem typed_line (inStr : List Char) (pid : ℕ) : typed [.line inStr pid] = [inStr] := rfl

theorem typed_others (es : List Event) : typed (es.map .other) = [] := by
  induction es with
  | nil => rfl
  | cons e es ih =>
      rw [List.map_cons, typed, List.flatMap_cons]
      exact ih

/-- A step that is not a line. -/
theorem sessionNext_other {e : Event} (h : sessionNext (.other e) s = some s') :
    s.threw = false ∧ e.input = [] ∧ ∃ t, Move s.state e t ∧ s' = { s with state := t } := by
  simp only [sessionNext] at h
  split at h
  · contradiction
  · rename_i hnot
    obtain ⟨t, hnext, rfl⟩ := Option.map_eq_some_iff.mp h
    obtain ⟨hthrew, hinput⟩ := not_or.mp hnot
    exact ⟨Bool.not_eq_true _ ▸ hthrew, not_not.mp hinput, t, next_eq_some_iff.mp hnext, rfl⟩

/-- What a line does. -/
theorem sessionNext_line {inStr : List Char} {pid : ℕ}
    (h : sessionNext (.line inStr pid) s = some s') :
    s.threw = false ∧ s.state.pc = .prompt ∧
      (readLine inStr = .throws ∨ (readLine inStr = .ignored ∧ s' = s) ∨
        ∃ c t, readLine inStr = .command c ∧ Move s.state (.enter c pid) t ∧
          s' = { s with state := t }) := by
  simp only [sessionNext] at h
  split at h
  · contradiction
  · rename_i hnot
    obtain ⟨hthrew, hpc⟩ := not_or.mp hnot
    refine ⟨Bool.not_eq_true _ ▸ hthrew, not_not.mp hpc, ?_⟩
    split at h
    · rename_i hread
      exact .inl hread
    · rename_i hread
      exact .inr (.inl ⟨hread, (Option.some.inj h).symm⟩)
    · rename_i c hread
      obtain ⟨t, hnext, rfl⟩ := Option.map_eq_some_iff.mp h
      exact .inr (.inr ⟨c, t, hread, next_eq_some_iff.mp hnext, rfl⟩)

theorem sessionNext_throws {inStr : List Char} (pid : ℕ) (hthrew : s.threw = false)
    (hpc : s.state.pc = .prompt) (hread : readLine inStr = .throws) :
    sessionNext (.line inStr pid) s = some { s with threw := true } := by
  rw [sessionNext, if_neg (by simp [hthrew, hpc]), hread]

theorem sessionNext_ignored {inStr : List Char} (pid : ℕ) (hthrew : s.threw = false)
    (hpc : s.state.pc = .prompt) (hread : readLine inStr = .ignored) :
    sessionNext (.line inStr pid) s = some s := by
  rw [sessionNext, if_neg (by simp [hthrew, hpc]), hread]

theorem sessionNext_command {inStr : List Char} {pid : ℕ} {c : Command} {t : State}
    (hthrew : s.threw = false) (hpc : s.state.pc = .prompt) (hread : readLine inStr = .command c)
    (hmove : Move s.state (.enter c pid) t) :
    sessionNext (.line inStr pid) s = some { s with state := t } := by
  rw [sessionNext, if_neg (by simp [hthrew, hpc]), hread]
  simp only [next_eq_some_iff.mpr hmove, Option.map_some]

/-- The steps of the shell that need no line are steps of the session. -/
theorem run_others {es : List Event} {a b : State} (hrun : Transition.run next es a = some b)
    (hinputs : inputs es = []) (hthrew : s.threw = false) (hstate : s.state = a) :
    Transition.run sessionNext (es.map .other) s = some { s with state := b } := by
  induction es generalizing s a with
  | nil =>
      obtain rfl := Option.some.inj hrun
      rw [← hstate]
      rfl
  | cons e es ih =>
      rw [inputs, List.flatMap_cons, List.append_eq_nil_iff] at hinputs
      rw [Transition.run, Option.bind_eq_some_iff] at hrun
      obtain ⟨t, hnext, hrun⟩ := hrun
      have hstep : sessionNext (.other e) s = some { s with state := t } := by
        rw [sessionNext, if_neg (by simp [hthrew, hinputs.1]), hstate, hnext, Option.map_some]
      rw [List.map_cons, Transition.run, hstep, Option.bind_some,
        ih (s := { s with state := t }) hrun hinputs.2 hthrew rfl]

/-- What holds of a session in which no line has thrown. -/
structure Orderly (ts : List Entry) (s : Session) : Prop where
  noThrow : s.threw = false
  wellFormed : WellFormed s.state
  exit : (∃ inStr ∈ typed ts, IsExit inStr) → AtExit s.state

theorem Orderly.other (h : Orderly ts s) {e : Event}
    (hnext : sessionNext (.other e) s = some s') : Orderly (ts ++ [.other e]) s' := by
  obtain ⟨-, hinput, t, hmove, rfl⟩ := sessionNext_other hnext
  refine ⟨h.noThrow, h.wellFormed.move hmove, ?_⟩
  rintro ⟨inStr, hmem, hexit⟩
  rw [typed_append] at hmem
  exact (h.exit ⟨inStr, by simpa [typed, Entry.typed] using hmem, hexit⟩).move hmove

/-- At the prompt no line typed so far is `exit`. -/
theorem Orderly.not_isExit (h : Orderly ts s) (hpc : s.state.pc = .prompt) :
    ∀ inStr ∈ typed ts, ¬ IsExit inStr :=
  fun inStr hmem hexit => not_atExit_of_prompt hpc (h.exit ⟨inStr, hmem, hexit⟩)

theorem Orderly.line (h : Orderly ts s) {inStr : List Char} {pid : ℕ} (hne : inStr ≠ [])
    (hnext : sessionNext (.line inStr pid) s = some s') :
    Orderly (ts ++ [.line inStr pid]) s' := by
  obtain ⟨-, hpc, hthrows | ⟨hread, rfl⟩ | ⟨c, t, hread, hmove, rfl⟩⟩ := sessionNext_line hnext
  · exact absurd hthrows (readLine_ne_throws hne)
  · refine ⟨h.noThrow, h.wellFormed, ?_⟩
    rintro ⟨l, hmem, hexit⟩
    rw [typed_append, typed_line] at hmem
    rcases List.mem_append.mp hmem with hmem | hmem
    · exact h.exit ⟨l, hmem, hexit⟩
    · rw [List.mem_singleton.mp hmem, ← readLine_exit_iff, hread] at hexit
      contradiction
  · refine ⟨h.noThrow, h.wellFormed.move hmove, ?_⟩
    rintro ⟨l, hmem, hexit⟩
    rw [typed_append, typed_line] at hmem
    rcases List.mem_append.mp hmem with hmem | hmem
    · exact (h.exit ⟨l, hmem, hexit⟩).move hmove
    · rw [List.mem_singleton.mp hmem, ← readLine_exit_iff, hread] at hexit
      obtain rfl := Reading.command.inj hexit
      cases hmove with
      | exit pid hpc => exact .inr ⟨0, rfl⟩

/-- Without a line, every step brings the iteration closer to its end. -/
theorem length_add_stepsLeft_le (hwell : WellFormed s.state) (hexit : ¬ AtExit s.state)
    (hthrew : s.threw = false) (hrun : Transition.run sessionNext us s = some s')
    (htyped : typed us = []) :
    us.length + s'.state.stepsLeft ≤ s.state.stepsLeft ∧ s'.threw = false ∧
      WellFormed s'.state ∧ ¬ AtExit s'.state := by
  induction us using List.reverseRecOn generalizing s' with
  | nil =>
      obtain rfl := Option.some.inj hrun
      exact ⟨(Nat.zero_add _).le, hthrew, hwell, hexit⟩
  | append_singleton us t ih =>
      obtain ⟨a, ha, hnext⟩ := Transition.run_concat_eq_some.mp hrun
      rw [typed_append, List.append_eq_nil_iff] at htyped
      obtain ⟨hle, hthrew, hwell, hexit⟩ := ih ha htyped.1
      cases t with
      | line inStr pid => exact absurd htyped.2 (List.cons_ne_nil _ _)
      | other e =>
          obtain ⟨-, hinput, t, hmove, rfl⟩ := sessionNext_other hnext
          have hlt := stepsLeft_lt hexit hmove hinput
          refine ⟨?_, hthrew, hwell.move hmove, not_atExit_of_move hexit hmove hinput⟩
          rw [List.length_append, List.length_singleton]
          dsimp only
          omega

/-- A session in which no line has thrown comes to the next prompt. -/
theorem Orderly.completes (h : Orderly ts s) (hexit : ¬ AtExit s.state) :
    ∃ n, ∀ us s', Transition.run sessionNext us s = some s' → typed us = [] →
      us.length ≤ n ∧ s'.threw = false ∧
        ((∀ e, sessionNext (.other e) s' = none) → s'.state.pc = .prompt) := by
  refine ⟨s.state.stepsLeft, fun us s' hrun htyped => ?_⟩
  obtain ⟨hle, hthrew, hwell, hexit'⟩ :=
    length_add_stepsLeft_le h.wellFormed hexit h.noThrow hrun htyped
  refine ⟨Nat.le_of_add_right_le hle, hthrew, fun hstuck => ?_⟩
  by_contra hprompt
  obtain ⟨e, t, hmove, hinput⟩ := exists_move hwell hexit' hprompt
  have hstep := hstuck e
  rw [sessionNext, if_neg (by simp [hthrew, hinput]), next_eq_some_iff.mpr hmove] at hstep
  contradiction

/-- A line that is typed before `exit` is one of the lines up to `exit`. -/
theorem mem_takeWhile_of_isPrefix {before : List (List Char)} {inStr : List Char}
    (hpre : before ++ [inStr] <+: lines) (hbefore : ∀ l ∈ before, ¬ IsExit l)
    (hexit : ¬ IsExit inStr) : inStr ∈ lines.takeWhile (¬ IsExit ·) := by
  obtain ⟨rest, rfl⟩ := hpre
  rw [List.append_assoc, List.takeWhile_append_of_pos (by simpa using hbefore),
    List.singleton_append, List.takeWhile_cons_of_pos (by simpa using hexit)]
  exact List.mem_append_right _ List.mem_cons_self

/-- Neither the lines up to `exit` nor `exit` itself are empty. -/
theorem ne_nil_of_isPrefix (hlines : ∀ l ∈ lines.takeWhile (¬ IsExit ·), l ≠ [])
    {before : List (List Char)} {inStr : List Char} (hpre : before ++ [inStr] <+: lines)
    (hbefore : ∀ l ∈ before, ¬ IsExit l) : inStr ≠ [] := by
  by_cases hexit : IsExit inStr
  · rintro rfl
    exact absurd hexit (by decide)
  · exact hlines inStr (mem_takeWhile_of_isPrefix hpre hbefore hexit)

/-- Without an empty line before `exit` no line throws. -/
theorem orderly_of_run (hlines : ∀ inStr ∈ lines.takeWhile (¬ IsExit ·), inStr ≠ [])
    (hrun : Transition.run sessionNext ts session = some s) (hpre : typed ts <+: lines) :
    Orderly ts s := by
  induction ts using List.reverseRecOn generalizing s with
  | nil =>
      obtain rfl := Option.some.inj hrun
      refine ⟨rfl, wellFormed_start, ?_⟩
      rintro ⟨l, hmem, -⟩
      exact absurd hmem List.not_mem_nil
  | append_singleton ts t ih =>
      obtain ⟨a, ha, hnext⟩ := Transition.run_concat_eq_some.mp hrun
      rw [typed_append] at hpre
      have horderly := ih ha ((List.prefix_append _ _).trans hpre)
      cases t with
      | other e => exact horderly.other hnext
      | line inStr pid =>
          exact horderly.line (ne_nil_of_isPrefix hlines hpre
            (horderly.not_isExit (sessionNext_line hnext).2.1)) hnext

/-- A line that is not empty and not `exit` leads from a prompt to a prompt. -/
theorem exists_line (hwell : WellFormed s.state) (hthrew : s.threw = false)
    (hpc : s.state.pc = .prompt) {inStr : List Char} (hne : inStr ≠ [])
    (hexit : ¬ IsExit inStr) :
    ∃ ts s', Transition.run sessionNext ts s = some s' ∧ typed ts = [inStr] ∧
      s'.threw = false ∧ s'.state.pc = .prompt := by
  cases hread : readLine inStr with
  | throws => exact absurd hread (readLine_ne_throws hne)
  | ignored =>
      refine ⟨[.line inStr 0], s, ?_, rfl, hthrew, hpc⟩
      rw [Transition.run, sessionNext_ignored 0 hthrew hpc hread, Option.bind_some,
        Transition.run]
  | command c =>
      obtain ⟨pid, hfresh⟩ := exists_fresh s.state.forked
      have hcommand : ∃ t, Move s.state (.enter c pid) t ∧ ¬ AtExit t := by
        cases c with
        | background name =>
            refine ⟨_, Move.background pid name hpc hfresh, ?_⟩
            rintro (h | ⟨i, h⟩)
            · contradiction
            · exact After.noConfusion (Pc.scan.inj h).2
        | foreground =>
            refine ⟨_, Move.foreground pid hpc hfresh, ?_⟩
            rintro (h | ⟨i, h⟩)
            · contradiction
            · exact After.noConfusion (Pc.scan.inj h).2
        | jobs => exact ⟨_, Move.jobs pid hpc, not_atExit_of_prompt hpc⟩
        | cd => exact ⟨_, Move.cd pid hpc, not_atExit_of_prompt hpc⟩
        | exit => exact absurd (readLine_exit_iff.mp hread) hexit
      obtain ⟨t, hmove, hnot⟩ := hcommand
      obtain ⟨es, b, hrun, hinputs, hprompt⟩ := exists_prompt (hwell.move hmove) hnot
      refine ⟨.line inStr pid :: es.map .other, { s with state := b }, ?_, ?_, hthrew, hprompt⟩
      · rw [Transition.run, sessionNext_command hthrew hpc hread hmove, Option.bind_some]
        exact run_others hrun hinputs hthrew rfl
      · rw [← List.singleton_append, typed_append, typed_line, typed_others, List.append_nil]

/-- Lines that are not empty and not `exit` can all be typed. -/
theorem exists_lines {before : List (List Char)} (hne : [] ∉ before)
    (hexit : ∀ l ∈ before, ¬ IsExit l) :
    ∃ ts s, Transition.run sessionNext ts session = some s ∧ typed ts = before ∧
      s.threw = false ∧ s.state.pc = .prompt := by
  induction before using List.reverseRecOn with
  | nil => exact ⟨[], session, rfl, rfl, rfl, rfl⟩
  | append_singleton before inStr ih =>
      have hne' : [] ∉ before := fun hmem => hne (List.mem_append_left _ hmem)
      obtain ⟨ts, s, hrun, htyped, hthrew, hpc⟩ :=
        ih hne' fun l hl => hexit l (List.mem_append_left _ hl)
      have horderly := orderly_of_run
        (fun l hl hnil => hne' (hnil ▸ (List.takeWhile_prefix _).subset hl)) hrun
        (htyped ▸ List.prefix_refl _)
      have hmem : inStr ∈ before ++ [inStr] := List.mem_append_right _ List.mem_cons_self
      obtain ⟨us, s', hrun', htyped', hthrew', hpc'⟩ := exists_line horderly.wellFormed hthrew hpc
        (fun hnil => hne (hnil ▸ hmem)) (hexit inStr hmem)
      refine ⟨ts ++ us, s', ?_, ?_, hthrew', hpc'⟩
      · rw [Transition.run_append, hrun, Option.bind_some, hrun']
      · rw [typed_append, htyped, htyped']

end Run

/-- No line throws and every iteration up to `exit` comes to the next prompt, in
every run on some lines, exactly when none of these lines up to `exit` is empty. -/
theorem sound_iff (lines : List (List Char)) :
    (∀ ts s, Transition.run sessionNext ts session = some s → typed ts <+: lines →
        s.Sound lines ts) ↔
      ∀ inStr ∈ lines.takeWhile (¬ IsExit ·), inStr ≠ [] := by
  constructor
  · intro h inStr hmem hempty
    subst hempty
    obtain ⟨before, rest, hsplit, hne⟩ := List.eq_append_cons_of_mem hmem
    have hpre : before ++ [[]] <+: lines := by
      refine List.IsPrefix.trans ?_ (List.takeWhile_prefix (¬ IsExit ·))
      exact ⟨rest, by rw [hsplit, List.append_assoc, List.singleton_append]⟩
    have hexit : ∀ l ∈ before, ¬ IsExit l := fun l hl => by
      have hmem : l ∈ lines.takeWhile (¬ IsExit ·) := hsplit ▸ List.mem_append_left _ hl
      simpa using List.mem_takeWhile_imp hmem
    obtain ⟨ts, s, hrun, htyped, hthrew, hpc⟩ := exists_lines hne hexit
    have hstep := sessionNext_throws 0 hthrew hpc readLine_nil
    have hsound := h (ts ++ [.line [] 0]) _ (Transition.run_concat_eq_some.mpr ⟨s, hrun, hstep⟩)
      (by rwa [typed_append, htyped, typed_line])
    exact absurd hsound.noThrow (by simp)
  · intro h ts s hrun hpre
    have horderly := orderly_of_run h hrun hpre
    refine ⟨horderly.noThrow, horderly.completes, ?_⟩
    intro inStr pid s' hline hwordless hnext
    obtain ⟨-, hpc, hcases⟩ := sessionNext_line hnext
    have hread : readLine inStr = .ignored :=
      readLine_wordless hwordless (ne_nil_of_isPrefix h hline (horderly.not_isExit hpc))
    rcases hcases with hthrows | ⟨-, heq⟩ | ⟨c, t, hcommand, -, -⟩
    · rw [hread] at hthrows
      contradiction
    · exact heq
    · rw [hread] at hcommand
      contradiction

/-- The empty line at the first prompt. -/
theorem not_sound_emptyLine :
    ¬ ∀ ts s, Transition.run sessionNext ts session = some s → typed ts <+: [[]] →
      s.Sound [[]] ts := by
  intro h
  have hrun : Transition.run sessionNext [.line [] 0] session =
      some { session with threw := true } := rfl
  exact absurd (h _ _ hrun (List.prefix_refl _)).noThrow (by decide)

end Shell

end OperatingSystems
