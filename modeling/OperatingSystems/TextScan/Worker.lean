import OperatingSystems.TextScan.Scan

/-!
# The worker of proj4

`sumthread` receives the first and the last offset of its range in a `RANGE`
message, scans these bytes and sends back an `ALLDONE` message. Besides the
loop's variables it counts the text bytes before the first gap. The four values
of its answer are the number of long runs, the lengths of the runs at the two
ends and the length of the longest run of the range.

The answer does not say whether the range has a gap. Two ranges with the same
answer count alike in every context exactly when both or neither have one.
-/

namespace OperatingSystems

namespace TextScan

open OperatingSystems.Run

inductive MsgType where
  | range
  | alldone
  deriving DecidableEq, Repr

/-- `msg`. -/
structure Msg where
  iFrom : ℤ
  type : MsgType
  value1 : ℤ
  value2 : ℤ
  value3 : ℤ
  value4 : ℤ
  deriving DecidableEq, Repr

/-- The bytes `pchFile[byteFrom]` to `pchFile[byteTo]`. -/
def bytesBetween (pchFile : List UInt8) (byteFrom byteTo : ℤ) : List UInt8 :=
  (pchFile.drop byteFrom.toNat).take (byteTo + 1 - byteFrom).toNat

/-- The range that a message asks for. -/
def Msg.bytes (message : Msg) (pchFile : List UInt8) : List UInt8 :=
  bytesBetween pchFile message.value1 message.value2

/-- The variables of `sumthread`. -/
structure Locals extends Counters where
  isBeginning : Bool
  charsAtBegin : ℤ
  deriving DecidableEq, Repr

def Locals.start : Locals where
  strLength := 0
  numStrings := 0
  maxLength := 0
  isBeginning := true
  charsAtBegin := 0

section Thread

variable (text : UInt8 → Bool)

/-- The body of the loop of `sumthread`. -/
def Locals.scanByte (l : Locals) (c : UInt8) : Locals where
  toCounters := TextScan.scanByte text l.toCounters c
  isBeginning := l.isBeginning && text c
  charsAtBegin := if text c && l.isBeginning then l.charsAtBegin + 1 else l.charsAtBegin

/-- `sumthread`, from the message it receives to the one it sends; a message of
another type makes it call `exit(1)`. -/
def sumthread (pchFile : List UInt8) (message : Msg) : Option Msg :=
  if message.type ≠ .range then none
  else
    let l := (message.bytes pchFile).foldl (Locals.scanByte text) Locals.start
    some { message with
      type := .alldone
      value1 := l.numStrings
      value2 := l.charsAtBegin
      value3 := l.strLength
      value4 := l.maxLength }

/-- The answer to a message, in terms of the runs of its range. -/
def answer (message : Msg) (bytes : List UInt8) : Msg :=
  { message with
    type := .alldone
    value1 := strings text 4 bytes
    value2 := leading text bytes
    value3 := trailing text bytes
    value4 := longest text bytes }

end Thread

section Spec

variable {text : UInt8 → Bool}

/-- The loop of `sumthread` is the common scan, with the leading run beside it. -/
theorem foldl_scanByte (bytes : List UInt8) :
    bytes.foldl (Locals.scanByte text) Locals.start =
      { toCounters := scan text Locals.start.toCounters bytes
        isBeginning := bytes.all text
        charsAtBegin := leading text bytes } := by
  induction bytes using List.reverseRecOn with
  | nil => rfl
  | append_singleton bytes c ih =>
      rw [List.foldl_append, ih, scan_concat, leading_concat, List.all_append]
      simp only [List.foldl_cons, List.foldl_nil, Locals.scanByte, List.all_cons, List.all_nil]
      by_cases hc : text c = true <;> by_cases hall : bytes.all text = true <;>
        simp [hc, hall]

theorem maxLength_foldl (bytes : List UInt8) :
    (scan text Locals.start.toCounters bytes).maxLength = longest text bytes := by
  rw [scan_maxLength rfl]
  by_cases hany : bytes.any text = true
  · rw [if_pos hany]
    exact max_eq_right (Int.natCast_nonneg _)
  · rw [if_neg hany, longest_of_none (by simpa using hany)]
    rfl

/-- The worker answers with the numbers of its range. -/
theorem sumthread_eq {message : Msg} (htype : message.type = .range) (pchFile : List UInt8) :
    sumthread text pchFile message = some (answer text message (message.bytes pchFile)) := by
  have hrefl : ¬ message.type ≠ .range := not_not_intro htype
  rw [sumthread, if_neg hrefl, foldl_scanByte]
  dsimp only
  rw [scan_numStrings rfl, scan_strLength rfl, maxLength_foldl]
  simp [answer, Locals.start]

theorem type_of_sumthread {pchFile : List UInt8} {message reply : Msg}
    (h : sumthread text pchFile message = some reply) : message.type = .range := by
  by_contra htype
  rw [sumthread, if_pos htype] at h
  contradiction

end Spec

section Summary

variable {text : UInt8 → Bool}

/-- Two answers with the same four values. -/
def SameValues (reply reply' : Msg) : Prop :=
  reply.value1 = reply'.value1 ∧ reply.value2 = reply'.value2 ∧
    reply.value3 = reply'.value3 ∧ reply.value4 = reply'.value4

instance (reply reply' : Msg) : Decidable (SameValues reply reply') :=
  inferInstanceAs (Decidable (_ ∧ _ ∧ _ ∧ _))

/-- Two ranges with the same four values count alike in every context exactly
when both consist of text, or both have a gap, or no byte counts as text. -/
theorem sameValues_interchangeable_iff {file file' : File} {message message' reply reply' : Msg}
    (h : sumthread text file.bytes message = some reply)
    (h' : sumthread text file'.bytes message' = some reply')
    (hsame : SameValues reply reply') :
    Interchangeable text 4 (message.bytes file.bytes) (message'.bytes file'.bytes) ↔
      (((message.bytes file.bytes).all text = true ↔
          (message'.bytes file'.bytes).all text = true) ∨
        ∀ c, text c = false) := by
  rw [sumthread_eq (type_of_sumthread h)] at h
  rw [sumthread_eq (type_of_sumthread h')] at h'
  obtain rfl := Option.some.inj h
  obtain rfl := Option.some.inj h'
  obtain ⟨hstrings, hlead, htrail, hlongest⟩ := hsame
  apply interchangeable_iff (by omega)
  · exact Int.ofNat_inj.mp hstrings
  · exact Int.ofNat_inj.mp hlead
  · exact Int.ofNat_inj.mp htrail
  · exact Int.ofNat_inj.mp hlongest

/-- The message for the first `n` bytes of a file. -/
def firstBytes (n : ℕ) : Msg := ⟨0, .range, 0, n - 1, 0, 0⟩

/-- The text `aa`. -/
def solidFile : File := ⟨[97, 97], by decide⟩

/-- The text `aa` twice with a gap between. -/
def gapFile : File := ⟨[97, 97, 0, 97, 97], by decide⟩

def wideGapFile : File := ⟨[97, 97, 0, 0, 97, 97], by decide⟩

/-- Two ranges with a gap and the same answer. -/
theorem sameValues_interchangeable_iff_gapFile :
    Interchangeable isText 4 ((firstBytes 5).bytes gapFile.bytes)
      ((firstBytes 6).bytes wideGapFile.bytes) := by
  have h : sumthread isText gapFile.bytes (firstBytes 5) =
      some ⟨0, .alldone, 0, 2, 2, 2⟩ := by decide
  have h' : sumthread isText wideGapFile.bytes (firstBytes 6) =
      some ⟨0, .alldone, 0, 2, 2, 2⟩ := by decide
  exact (sameValues_interchangeable_iff h h' ⟨rfl, rfl, rfl, rfl⟩).mpr (.inl (by decide))

/-- The worker sends the same four values for `aa` and for `aa`, a zero, `aa`,
but with one more letter on either side only the first is a run of four. -/
theorem not_interchangeable_gapFile :
    ∃ reply reply', sumthread isText solidFile.bytes (firstBytes 2) = some reply ∧
      sumthread isText gapFile.bytes (firstBytes 5) = some reply' ∧
      SameValues reply reply' ∧
      ¬ Interchangeable isText 4 ((firstBytes 2).bytes solidFile.bytes)
        ((firstBytes 5).bytes gapFile.bytes) := by
  refine ⟨⟨0, .alldone, 0, 2, 2, 2⟩, ⟨0, .alldone, 0, 2, 2, 2⟩, by decide, by decide, by decide,
    ?_⟩
  intro h
  exact absurd (h [97] [97]).1 (by decide)

end Summary

end TextScan

end OperatingSystems
