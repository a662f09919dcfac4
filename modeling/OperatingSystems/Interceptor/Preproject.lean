import OperatingSystems.Interceptor.Dispatch

/-!
# The system calls of the preproject

The kernel has three system calls that write a line to the log and return 0, and
`proj2test` makes them one after the other. `module` answers the first of them and
`intercept` the second. As `module` returns 0 too, the test cannot tell whether it
is loaded, and `intercept` shows in the second value.
-/

namespace OperatingSystems

namespace Interceptor

open OperatingSystems OperatingSystems.Output OperatingSystems.ProcessInfo

variable {W : WordSize} {ι C E : Type*}

/-- The line of `cs3013_syscall1`, `cs3013_syscall2` or `cs3013_syscall3`. -/
def helloLine (n : ℕ) : List UInt8 :=
  [0xE2, 0x80, 0x98] ++ ascii "Hello, world!" ++ [0xE2, 0x80, 0x99] ++
    ascii " -- syscall" ++ digits n ++ [10]

/-- `__NR_cs3013_syscall1` and so on. -/
def Symbols.dummies (K : Symbols W) (nrSyscall3 : ℕ) : List ℕ :=
  [K.nrSyscall1, K.nrSyscall2, nrSyscall3]

/-- The functions of the preproject are in the table, and no module has a handler for
the third one. -/
structure Services.Preproject (V : Services W ι C E) (K : Symbols W) (original : ℕ → Word W)
    (nrSyscall3 : ℕ) : Prop where
  handle : ∀ n c p e, (K.dummies nrSyscall3)[n]? = some c.number →
    V.handle (original c.number) p c e = (0, [helloLine (n + 1)], e)
  nodup : (K.dummies nrSyscall3).Nodup

/-- The values that the three calls can return, where `q` is to hold of the second. -/
def Answer (K : Symbols W) (nrSyscall3 : ℕ) (q : ℤ → Prop) (c : Call W) (value : ℤ) : Prop :=
  (c.number = K.nrSyscall1 → value = 0) ∧ (c.number = K.nrSyscall2 → q value) ∧
    (c.number = nrSyscall3 → value = 0)

/-- The values returned and about to be returned. -/
structure System.Answered (K : Symbols W) (nrSyscall3 : ℕ) (q : ℤ → Prop) (s : System W ι E) :
    Prop where
  returns : ∀ p value callers c, s.stage p = .returns value callers c →
    Answer K nrSyscall3 q c value
  results : ∀ r ∈ s.results, Answer K nrSyscall3 q r.2.1 r.2.2

theorem Answer.zero {K : Symbols W} {nrSyscall3 : ℕ} {q : ℤ → Prop} (hq : q 0) (c : Call W) :
    Answer K nrSyscall3 q c 0 := ⟨fun _ => rfl, fun _ => hq, fun _ => rfl⟩

section Steps

variable {K : Symbols W} {V : Services W ι C E} [DecidableEq ι] {table : Word W} {k₀ : Kernel W}
variable {s s' : System W ι E} {p : ι} {nrSyscall3 : ℕ} {q : ℤ → Prop}

theorem System.Answered.setStage (h : s.Answered K nrSyscall3 q) {stage : Stage W}
    (hstage : ∀ value callers c, stage = .returns value callers c →
      Answer K nrSyscall3 q c value) :
    (s.setStage p stage).Answered K nrSyscall3 q where
  returns := fun p' value callers c h' => by
    by_cases hp : p' = p
    · subst hp
      simp only [System.setStage, Function.update_self] at h'
      exact hstage value callers c h'
    · simp only [System.setStage, Function.update_of_ne hp] at h'
      exact h.returns p' value callers c h'
  results := h.results

theorem ProcessMove.modules {original : ℕ → Word W} (hmove : ProcessMove K V original s p s') :
    s'.modules = s.modules := by
  cases hmove <;> rfl

/-- What a process does, where the answers of `intercept` are among those that the
second call may return. -/
theorem ProcessMove.answered_of {original : ℕ → Word W}
    (hpre : V.Preproject K original nrSyscall3) (hq : q 0)
    (hinfo : ∀ p c, s.modules.loaded .intercept ≠ none → q (V.processInfo p c s.env).1)
    (h : s.Answered K nrSyscall3 q) (hmove : ProcessMove K V original s p s') :
    s'.Answered K nrSyscall3 q := by
  have hlog : ∀ (e : E) (log : List (List UInt8)),
      ({ s with env := e, log := log } : System W ι E).Answered K nrSyscall3 q :=
    fun _ _ => ⟨h.returns, h.results⟩
  have hone : ∀ {value : ℤ} {callers : List Handler} {c : Call W}, Answer K nrSyscall3 q c value →
      ∀ value' callers' c', Stage.returns value callers c = .returns value' callers' c' →
        Answer K nrSyscall3 q c' value' := by
    rintro value callers c hanswer _ _ _ ⟨⟩
    exact hanswer
  cases hmove with
  | kernel callers c =>
      refine (hlog _ _).setStage (hone ⟨fun h1 => ?_, fun h2 => ?_, fun h3 => ?_⟩)
      · rw [hpre.handle 0 c p s.env (congrArg some h1.symm)]
      · rw [hpre.handle 1 c p s.env (congrArg some h2.symm)]
        exact hq
      · rw [hpre.handle 2 c p s.env (congrArg some h3.symm)]
  | line => exact (hlog s.env _).setStage fun _ _ _ h => by cases h
  | goodbye c => exact (hlog s.env _).setStage (hone (.zero hq c))
  | info c _ hslot hloaded =>
      have hnodup := hpre.nodup
      simp only [Symbols.dummies, List.nodup_cons, List.mem_cons, List.not_mem_nil, or_false,
        not_or] at hnodup
      refine (hlog _ s.log).setStage (hone ⟨fun h1 => ?_, fun _ => hinfo p c hloaded,
        fun h3 => ?_⟩)
      · exact absurd (h1.symm.trans hslot.symm) hnodup.1.1
      · exact absurd (hslot.trans h3) hnodup.2.1
  | saved => exact h.setStage fun _ _ _ h => by cases h
  | back value hd c hstage => exact h.setStage (hone (h.returns p value [hd] c hstage))
  | answered value c hstage =>
      have hresults : ({ s with results := s.results ++ [(p, c, value)] } :
          System W ι E).Answered K nrSyscall3 q := ⟨h.returns, fun r hr => ?_⟩
      · exact hresults.setStage fun _ _ _ h => by cases h
      rcases List.mem_append.mp hr with hr | hr
      · exact h.results r hr
      · rw [List.mem_singleton.mp hr]
        exact h.returns p value [] c hstage
  | gone => exact h.setStage fun _ _ _ h => by cases h
  | unreadable => exact h.setStage fun _ _ _ h => by cases h

/-- One event. -/
theorem System.Answered.next (h : s.Answered K nrSyscall3 q) (hsound : s.Sound K table k₀)
    (hK : K.Placed fun n => k₀.mem (entry table n))
    (hpre : V.Preproject K (fun n => k₀.mem (entry table n)) nrSyscall3) (hq : q 0)
    (hinfo : ∀ p c, s.modules.loaded .intercept ≠ none → q (V.processInfo p c s.env).1)
    {e : SystemEvent W ι} (hs : systemNext K V table e s = some s') :
    s'.Answered K nrSyscall3 q := by
  cases e with
  | manage e =>
      obtain ⟨st, -, rfl⟩ := Option.map_eq_some_iff.mp hs
      exact ⟨h.returns, h.results⟩
  | call p c =>
      simp only [systemNext] at hs
      split at hs
      case h_2 => cases hs
      case h_1 => exact Option.some.inj hs ▸ h.setStage fun _ _ _ h => by cases h
  | step p =>
      exact (processMove_of_step hK hsound.modules (hsound.sane p) hs).answered_of hpre hq hinfo h

end Steps

section Runs

variable (K : Symbols W) (V : Services W ι C E) [DecidableEq ι] (table : Word W) {k₀ : Kernel W}
variable {e₀ : E} {s : System W ι E} {nrSyscall3 : ℕ}

end Runs

section Example

end Example

end Interceptor

end OperatingSystems
