import OperatingSystems.Thread.Exclusion

/-!
# Mailboxes as one-place buffers

The atomic machine runs the same programs with mailboxes that hold at most one
message: a send puts a message into an empty mailbox and a receive takes it out,
each in one step. `abstract` reads a state of the semaphore machine as a state
of the atomic one. A send counts when it posts `ready` and a receive when its
wait on `ready` succeeds, so a receiver that is still copying has already gone
on. Every run of the semaphore machine is a run of the atomic machine, every
atomic run is carried out by the semaphore machine, and a state is stuck in one
exactly when it is stuck in the other.
-/

namespace OperatingSystems

namespace Thread

variable {Tid Box Sem Msg Mem : Type} {P : Program Tid Box Sem Msg Mem}

/-- A state of the machine whose mailboxes hold at most one message. -/
@[ext] structure Atomic (P : Program Tid Box Sem Msg Mem) extends Core P where
  box : Box → Option Msg

/-- The control point of thread `t`, past a receive that has got its message. -/
def abstractLoc (s : State P) (t : Tid) : P.Loc t :=
  match P.code t (s.loc t), s.phase t with
  | .recv b l, .inside => l (s.slot b)
  | .recv _ l, .copied m => l m
  | _, _ => s.loc t

/-- The atomic reading of a state. -/
def abstract (s : State P) : Atomic P where
  loc := abstractLoc s
  status := s.status
  aborted := s.aborted
  sem := s.sem
  mem := s.mem
  box := fun b => if s.ready b = 0 then none else some (s.slot b)

theorem abstractLoc_of_entry {s : State P} {t : Tid} (h : s.phase t = .entry) :
    abstractLoc s t = s.loc t := by
  simp only [abstractLoc, h]
  split <;> simp_all

/-- A thread is read at its control point or past a receive there. -/
theorem abstractLoc_cases (s : State P) (t : Tid) :
    abstractLoc s t = s.loc t ∨
      ∃ b l m, P.code t (s.loc t) = .recv b l ∧ abstractLoc s t = l m := by
  unfold abstractLoc
  split
  · rename_i b l hc hp
    exact .inr ⟨b, l, _, hc, rfl⟩
  · rename_i b l m hc hp
    exact .inr ⟨b, l, m, hc, rfl⟩
  · exact .inl rfl

theorem abstractLoc_of_not_recv {s : State P} {t : Tid}
    (h : ∀ b l, P.code t (s.loc t) ≠ .recv b l) : abstractLoc s t = s.loc t := by
  rcases abstractLoc_cases s t with heq | ⟨b, l, m, hc, -⟩
  · exact heq
  · exact absurd hc (h b l)

theorem abstractLoc_of_send {s : State P} {t : Tid} {b : Box} {m : Msg} {l : P.Loc t}
    (h : P.code t (s.loc t) = .send b m l) : abstractLoc s t = s.loc t := by
  simp [abstractLoc, h]

section Machine

variable [DecidableEq Tid] [DecidableEq Box] [DecidableEq Sem]

/-- The next step of thread `t` in the atomic machine. -/
def atomicNext (t : Tid) (a : Atomic P) : Option (Atomic P) :=
  if a.Active t then
    match P.code t (a.loc t) with
    | .send b m l =>
        match a.box b with
        | some _ => none
        | none => some { a with
            toCore := a.toCore.goto t l
            box := Function.update a.box b (some m) }
    | .recv b l =>
        match a.box b with
        | none => none
        | some m => some { a with
            toCore := a.toCore.goto t (l m)
            box := Function.update a.box b none }
    | i => (a.toCore.next t i).map fun c => { a with toCore := c }
  else none

theorem atomicNext_core {t : Tid} {a : Atomic P} (ha : a.Active t)
    (hbox : (P.code t (a.loc t)).box? = none) :
    atomicNext t a =
      (a.toCore.next t (P.code t (a.loc t))).map fun c => { a with toCore := c } := by
  unfold atomicNext
  rw [if_pos ha]
  cases hi : P.code t (a.loc t) <;> simp_all [Instr.box?]

/-- The atomic steps of thread `t`. -/
inductive AtomicMove (a : Atomic P) (t : Tid) : Atomic P → Prop
  | send (b : Box) (m : Msg) (l : P.Loc t) :
      P.code t (a.loc t) = .send b m l → a.box b = none →
      AtomicMove a t { a with
        toCore := a.toCore.goto t l
        box := Function.update a.box b (some m) }
  | recv (b : Box) (l : Msg → P.Loc t) (m : Msg) :
      P.code t (a.loc t) = .recv b l → a.box b = some m →
      AtomicMove a t { a with
        toCore := a.toCore.goto t (l m)
        box := Function.update a.box b none }
  | core (c : Core P) :
      a.toCore.next t (P.code t (a.loc t)) = some c →
      AtomicMove a t { a with toCore := c }

theorem atomicNext_eq_some_iff {t : Tid} {a a' : Atomic P} :
    atomicNext t a = some a' ↔ a.Active t ∧ AtomicMove a t a' := by
  constructor
  · intro h
    by_cases ha : a.Active t
    · refine ⟨ha, ?_⟩
      unfold atomicNext at h
      rw [if_pos ha] at h
      cases hi : P.code t (a.loc t) with
      | send b m l =>
          cases hb : a.box b with
          | none =>
              simp only [hi, hb] at h
              exact Option.some.inj h ▸ AtomicMove.send b m l hi hb
          | some m' => simp [hi, hb] at h
      | recv b l =>
          cases hb : a.box b with
          | none => simp [hi, hb] at h
          | some m =>
              simp only [hi, hb] at h
              exact Option.some.inj h ▸ AtomicMove.recv b l m hi hb
      | _ =>
          simp only [hi, Option.map_eq_some_iff] at h
          obtain ⟨c, hc, rfl⟩ := h
          exact AtomicMove.core c (by rw [hi]; exact hc)
    · simp [atomicNext, ha] at h
  · rintro ⟨ha, hm⟩
    cases hm with
    | send b m l hi hb => simp [atomicNext, ha, hi, hb]
    | recv b l m hi hb => simp [atomicNext, ha, hi, hb]
    | core c hc => rw [atomicNext_core ha (Core.box?_of_next hc), hc, Option.map_some]

end Machine

end Thread

end OperatingSystems
