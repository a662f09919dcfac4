import Mathlib.Data.List.SplitLengths
import OperatingSystems.TextScan.Buffered

/-!
# Short reads

A `read` may deliver fewer bytes than the buffer holds, although more are to come.
`regular_read` then scans the zeros behind them, which ends a run at that place: it
scans the bytes as they are, but sets `str_length` back wherever a short read ended.
Two ways of cutting the same bytes into reads leave the same report if their short
reads cut the same runs at the same places.
-/

namespace OperatingSystems

namespace TextScan

/-- What the calls of `read` return before the one that returns zero: numbers between
one and the size of the buffer. -/
structure Schedule (bufsize n : ℕ) where
  counts : List ℕ
  sum_eq : counts.sum = n
  pos : ∀ count ∈ counts, 1 ≤ count
  le : ∀ count ∈ counts, count ≤ bufsize

/-- The counters after `regular_read` has got the bytes in the reads of the schedule. -/
def Schedule.report {bufsize n : ℕ} (s : Schedule bufsize n) (text : UInt8 → Bool)
    (bytes : List UInt8) : Counters :=
  readLoop text bufsize (zeros bufsize) Counters.start (s.counts.splitLengths bytes)

/-- For each byte, whether a short read ended just before it; the first flag is
given. -/
def breaks (bufsize : ℕ) (broken : Bool) : List ℕ → List Bool
  | [] => []
  | count :: counts =>
      broken :: (List.replicate (count - 1) false ++
        breaks bufsize (decide (count < bufsize)) counts)

def Schedule.breaks {bufsize n : ℕ} (s : Schedule bufsize n) : List Bool :=
  TextScan.breaks bufsize false s.counts

/-- The bytes at the positions `i` and `i + 1` are text. -/
def TextPair (text : UInt8 → Bool) (bytes : List UInt8) (i : ℕ) : Prop :=
  ∃ c d, bytes[i]? = some c ∧ bytes[i + 1]? = some d ∧ text c = true ∧ text d = true

/-- The run is over. -/
def Counters.endRun (r : Counters) (broken : Bool) : Counters :=
  if broken then { r with strLength := 0 } else r

/-- The scan of bytes with their flags. -/
def scanBroken (text : UInt8 → Bool) (r : Counters) (l : List (Bool × UInt8)) : Counters :=
  l.foldl (fun r x => scanByte text (r.endRun x.1) x.2) r

section Breaks

variable {bufsize : ℕ} {broken : Bool} {counts : List ℕ}

theorem length_breaks (hpos : ∀ count ∈ counts, 1 ≤ count) :
    (breaks bufsize broken counts).length = counts.sum := by
  induction counts generalizing broken with
  | nil => rfl
  | cons count counts ih =>
      have hcount := hpos count List.mem_cons_self
      rw [breaks, List.length_cons, List.length_append, List.length_replicate,
        ih fun c hc => hpos c (List.mem_cons_of_mem count hc), List.sum_cons]
      omega

theorem Schedule.length_breaks {n : ℕ} (s : Schedule bufsize n) : s.breaks.length = n := by
  rw [Schedule.breaks, TextScan.length_breaks s.pos, s.sum_eq]

/-- Full reads break nothing. -/
theorem breaks_full (hpos : ∀ count ∈ counts, 1 ≤ count)
    (hfull : ∀ count ∈ counts, bufsize ≤ count) :
    breaks bufsize false counts = List.replicate counts.sum false := by
  induction counts with
  | nil => rfl
  | cons count counts ih =>
      have hcount := hpos count List.mem_cons_self
      have hlt : decide (count < bufsize) = false :=
        decide_eq_false (not_lt.mpr (hfull count List.mem_cons_self))
      have hsum : count + counts.sum = (count - 1 + counts.sum) + 1 := by omega
      rw [breaks, hlt, ih (fun c hc => hpos c (List.mem_cons_of_mem count hc))
        fun c hc => hfull c (List.mem_cons_of_mem count hc), ← List.replicate_add, List.sum_cons,
        hsum, List.replicate_succ]

/-- Reads of one byte break everywhere. -/
theorem breaks_ones (hbuf : 1 < bufsize) (n : ℕ) :
    breaks bufsize true (List.replicate n 1) = List.replicate n true := by
  induction n with
  | zero => rfl
  | succ n ih =>
      rw [List.replicate_succ, breaks, decide_eq_true hbuf, ih, List.replicate_succ]
      rfl

/-- A read of two bytes keeps them together. -/
theorem breaks_pair (hbuf : 1 < bufsize) (i m : ℕ) :
    (breaks bufsize broken (List.replicate i 1 ++ 2 :: List.replicate m 1))[i + 1]? =
      some false := by
  induction i generalizing broken with
  | zero => rfl
  | succ i ih =>
      rw [List.replicate_succ, List.cons_append, breaks, decide_eq_true hbuf]
      exact ih

end Breaks

section Scan

variable {text : UInt8 → Bool} {bufsize : ℕ} {r : Counters}

/-- The zeros behind a short read end the run, and do nothing else. -/
theorem scan_zeros (hzero : text 0 = false) (n : ℕ) :
    scan text r (zeros n) = r.endRun (decide (0 < n)) := by
  induction n with
  | zero => rfl
  | succ n ih =>
      have hbyte : scanByte text (r.endRun (decide (0 < n))) 0 = r.endRun true := by
        unfold Counters.endRun
        split <;> simp [scanByte, hzero]
      rw [zeros, List.replicate_succ', scan_concat, ← zeros, ih, hbyte]
      simp

theorem scanBroken_cons (x : Bool × UInt8) (l : List (Bool × UInt8)) :
    scanBroken text r (x :: l) = scanBroken text (scanByte text (r.endRun x.1) x.2) l := rfl

theorem scanBroken_append (l l' : List (Bool × UInt8)) :
    scanBroken text r (l ++ l') = scanBroken text (scanBroken text r l) l' :=
  List.foldl_append

/-- Where nothing is broken the scan is the usual one. -/
theorem scanBroken_replicate (bytes : List UInt8) :
    scanBroken text r ((List.replicate bytes.length false).zip bytes) = scan text r bytes := by
  induction bytes generalizing r with
  | nil => rfl
  | cons c bytes ih =>
      rw [List.length_cons, List.replicate_succ, List.zip_cons_cons, scanBroken_cons]
      exact ih

/-- The flags of the bytes of the first read and of the others. -/
theorem zip_breaks_cons (broken : Bool) (counts : List ℕ) (c : UInt8) (data rest : List UInt8) :
    (breaks bufsize broken ((c :: data).length :: counts)).zip (c :: data ++ rest) =
      (broken, c) :: ((List.replicate data.length false).zip data ++
        (breaks bufsize (decide ((c :: data).length < bufsize)) counts).zip rest) := by
  rw [breaks, List.cons_append, List.zip_cons_cons, List.length_cons, Nat.add_sub_cancel,
    List.zip_append List.length_replicate]

/-- The first read takes its bytes from the beginning. -/
theorem exists_first_read {bytes : List UInt8} {count n : ℕ} (hcount : 1 ≤ count)
    (hsum : count + n = bytes.length) :
    ∃ c data rest, bytes = c :: data ++ rest ∧ (c :: data).length = count ∧ n = rest.length := by
  obtain ⟨c, bytes, rfl⟩ := List.exists_cons_of_length_pos (l := bytes) (by omega)
  rw [List.length_cons] at hsum
  refine ⟨c, bytes.take (count - 1), bytes.drop (count - 1), by simp, ?_, ?_⟩
  · rw [List.length_cons, List.length_take]
    omega
  · rw [List.length_drop]
    omega

/-- The loop over the reads scans the bytes with the flags. -/
theorem sameReport_scanBroken (hzero : text 0 = false) (r : Counters) (broken : Bool)
    {counts : List ℕ} (hpos : ∀ count ∈ counts, 1 ≤ count) (bytes : List UInt8)
    (hsum : counts.sum = bytes.length) :
    SameReport (readLoop text bufsize (zeros bufsize) (r.endRun broken) (counts.splitLengths bytes))
      (scanBroken text r ((breaks bufsize broken counts).zip bytes)) := by
  induction counts generalizing r broken bytes with
  | nil =>
      rw [breaks, List.zip_nil_left, List.splitLengths_nil, readLoop]
      unfold Counters.endRun
      split <;> exact ⟨rfl, rfl⟩
  | cons count counts ih =>
      rw [List.sum_cons] at hsum
      obtain ⟨c, data, rest, rfl, rfl, hrest⟩ :=
        exists_first_read (hpos count List.mem_cons_self) hsum
      have hblock := ih (scan text (r.endRun broken) (c :: data))
        (decide ((c :: data).length < bufsize))
        (fun d hd => hpos d (List.mem_cons_of_mem _ hd)) rest hrest
      have hshort : decide (0 < bufsize - (c :: data).length) =
          decide ((c :: data).length < bufsize) := by
        rw [decide_eq_decide]
        omega
      rw [List.splitLengths_cons, List.take_left, List.drop_left, readLoop, fill_zeros,
        scan_append, scan_zeros hzero, hshort, zip_breaks_cons, scanBroken_cons, scanBroken_append,
        scanBroken_replicate]
      exact hblock

/-- A byte after the end of a run, and a byte that is not text, need no flag. -/
theorem scanByte_endRun {c : UInt8} {broken broken' : Bool}
    (h : r.strLength ≠ 0 → text c = true → broken = broken') :
    scanByte text (r.endRun broken) c = scanByte text (r.endRun broken') c := by
  by_cases hc : text c = true
  · by_cases hr : r.strLength = 0
    · have hsame : { r with strLength := 0 } = r := by rw [← hr]
      simp [Counters.endRun, hsame]
    · rw [h hr hc]
  · unfold Counters.endRun
    cases broken <;> cases broken' <;> simp [scanByte, hc]

/-- Flags that agree between two bytes of text give the same scan. -/
theorem scanBroken_congr {flags flags' : List Bool} {bytes : List UInt8}
    (hlen : flags.length = bytes.length) (hlen' : flags'.length = bytes.length)
    (hfirst : r.strLength ≠ 0 → ∀ c, bytes[0]? = some c → text c = true → flags[0]? = flags'[0]?)
    (h : ∀ i, TextPair text bytes i → flags[i + 1]? = flags'[i + 1]?) :
    scanBroken text r (flags.zip bytes) = scanBroken text r (flags'.zip bytes) := by
  induction bytes generalizing r flags flags' with
  | nil => rw [List.zip_nil_right, List.zip_nil_right]
  | cons c bytes ih =>
      obtain ⟨broken, flags, rfl⟩ := List.exists_cons_of_length_eq_add_one hlen
      obtain ⟨broken', flags', rfl⟩ := List.exists_cons_of_length_eq_add_one hlen'
      have hbyte : scanByte text (r.endRun broken) c = scanByte text (r.endRun broken') c :=
        scanByte_endRun fun hr hc => Option.some.inj (hfirst hr c rfl hc)
      rw [List.zip_cons_cons, List.zip_cons_cons, scanBroken_cons, scanBroken_cons, ← hbyte]
      refine ih (by simpa using hlen) (by simpa using hlen') (fun hr d hd ht => ?_) fun i hi => ?_
      · have hc : text c = true := by
          by_contra hc
          exact hr (by simp [scanByte, hc])
        exact h 0 ⟨c, d, rfl, hd, hc, ht⟩
      · exact h (i + 1) hi

theorem scanByte_strLength_nonneg {c : UInt8} {broken : Bool} (hr : 0 ≤ r.strLength) :
    0 ≤ (scanByte text (r.endRun broken) c).strLength := by
  by_cases hc : text c = true
  · cases broken <;> simp [scanByte, Counters.endRun, hc]
    omega
  · simp [scanByte, hc]

theorem scanByte_strLength_pos {c : UInt8} {broken : Bool} (hr : 0 ≤ r.strLength) :
    1 ≤ (scanByte text (r.endRun broken) c).strLength ↔ text c = true := by
  by_cases hc : text c = true
  · cases broken <;> simp [scanByte, Counters.endRun, hc]
    omega
  · simp [scanByte, hc]

theorem two_le_scanByte {c : UInt8} {broken : Bool} (hr : 0 ≤ r.strLength) :
    2 ≤ (scanByte text (r.endRun broken) c).maxLength ↔
      2 ≤ r.maxLength ∨ (1 ≤ r.strLength ∧ broken = false ∧ text c = true) := by
  by_cases hc : text c = true
  · cases broken with
    | false =>
        simp only [scanByte, Counters.endRun, hc, if_true, true_and, and_true, Bool.false_eq_true,
          if_false]
        split <;> omega
    | true =>
        simp only [scanByte, Counters.endRun, hc, if_true, true_and, Bool.true_eq_false, false_and,
          and_false, or_false]
        split <;> omega
  · cases broken <;> simp [scanByte, Counters.endRun, hc]

/-- A pair of text bytes without a break is at the head or further on. -/
theorem exists_textPair_cons {c : UInt8} {bytes : List UInt8} {broken : Bool}
    {flags : List Bool} :
    (∃ i, TextPair text (c :: bytes) i ∧ (broken :: flags)[i + 1]? = some false) ↔
      (text c = true ∧ flags[0]? = some false ∧ ∃ d, bytes[0]? = some d ∧ text d = true) ∨
        ∃ i, TextPair text bytes i ∧ flags[i + 1]? = some false := by
  constructor
  · rintro ⟨i, ⟨a, b, ha, hb, hta, htb⟩, hflag⟩
    cases i with
    | zero =>
        obtain rfl : c = a := Option.some.inj ha
        exact .inl ⟨hta, hflag, b, hb, htb⟩
    | succ i => exact .inr ⟨i, ⟨a, b, ha, hb, hta, htb⟩, hflag⟩
  · rintro (⟨hc, hflag, d, hd, htd⟩ | ⟨i, hi, hflag⟩)
    · exact ⟨0, ⟨c, d, rfl, hd, hc, htd⟩, hflag⟩
    · exact ⟨i + 1, hi, hflag⟩

/-- The longest run reaches two bytes exactly when two bytes of text stand next to
each other with no break between them. -/
theorem two_le_maxLength (text : UInt8 → Bool) (r : Counters) {flags : List Bool}
    {bytes : List UInt8} (hlen : flags.length = bytes.length) (hr : 0 ≤ r.strLength) :
    2 ≤ (scanBroken text r (flags.zip bytes)).maxLength ↔
      2 ≤ r.maxLength ∨
        (1 ≤ r.strLength ∧ flags[0]? = some false ∧ ∃ c, bytes[0]? = some c ∧ text c = true) ∨
        ∃ i, TextPair text bytes i ∧ flags[i + 1]? = some false := by
  induction bytes generalizing r flags with
  | nil => simp [TextPair, scanBroken]
  | cons c bytes ih =>
      obtain ⟨broken, flags, rfl⟩ := List.exists_cons_of_length_eq_add_one hlen
      rw [List.zip_cons_cons, scanBroken_cons, ih _ (by simpa using hlen)
        (scanByte_strLength_nonneg hr), scanByte_strLength_pos hr, two_le_scanByte hr,
        exists_textPair_cons]
      simp [or_assoc]

end Scan

section Schedules

variable {text : UInt8 → Bool} {bufsize n : ℕ} {bytes : List UInt8}

/-- The counters that are reported are those of the scan with the flags. -/
theorem Schedule.sameReport_scanBroken (hzero : text 0 = false) (s : Schedule bufsize n)
    (hlen : bytes.length = n) :
    SameReport (s.report text bytes) (scanBroken text Counters.start (s.breaks.zip bytes)) :=
  TextScan.sameReport_scanBroken hzero Counters.start false s.pos bytes (s.sum_eq.trans hlen.symm)

/-- Short reads that cut the same runs leave the same report. -/
theorem Schedule.sameReport_of_breaks (hzero : text 0 = false) {s s' : Schedule bufsize n}
    (hlen : bytes.length = n)
    (h : ∀ i, TextPair text bytes i → s.breaks[i + 1]? = s'.breaks[i + 1]?) :
    SameReport (s.report text bytes) (s'.report text bytes) := by
  have hs := s.sameReport_scanBroken hzero hlen
  have hs' := s'.sameReport_scanBroken hzero hlen
  rw [scanBroken_congr (s.length_breaks.trans hlen.symm) (s'.length_breaks.trans hlen.symm)
    (fun hr => absurd rfl hr) h] at hs
  exact ⟨hs.1.trans hs'.1.symm, hs.2.trans hs'.2.symm⟩

/-- A run of two bytes is reported if it is in the bytes and not cut. -/
theorem Schedule.two_le_maxLength (hzero : text 0 = false) (s : Schedule bufsize n)
    (hlen : bytes.length = n) :
    2 ≤ (s.report text bytes).maxLength ↔
      ∃ i, TextPair text bytes i ∧ s.breaks[i + 1]? = some false := by
  have hmax := TextScan.two_le_maxLength text Counters.start (s.length_breaks.trans hlen.symm)
    le_rfl
  rw [(s.sameReport_scanBroken hzero hlen).2, hmax]
  simp [Counters.start]

/-- The bytes one by one. -/
def Schedule.ones (n : ℕ) (hbuf : 1 ≤ bufsize) : Schedule bufsize n where
  counts := List.replicate n 1
  sum_eq := by simp
  pos := fun count h => (List.eq_of_mem_replicate h).ge
  le := fun count h => (List.eq_of_mem_replicate h).le.trans hbuf

/-- The bytes one by one, but the bytes `i` and `i + 1` together. -/
def Schedule.pair {i : ℕ} (hi : i + 1 < n) (hbuf : 2 ≤ bufsize) : Schedule bufsize n where
  counts := List.replicate i 1 ++ 2 :: List.replicate (n - i - 2) 1
  sum_eq := by
    simp
    omega
  pos := fun count h => by
    simp at h
    omega
  le := fun count h => by
    simp at h
    omega

theorem Schedule.breaks_ones (hbuf : 1 < bufsize) {i : ℕ} :
    (Schedule.ones n hbuf.le).breaks[i + 1]? ≠ some false := by
  intro h
  cases n with
  | zero => cases h
  | succ n =>
      have htail : (Schedule.ones (n + 1) hbuf.le).breaks = false :: List.replicate n true := by
        change TextScan.breaks bufsize false (List.replicate (n + 1) 1) = _
        rw [List.replicate_succ, TextScan.breaks, decide_eq_true hbuf, TextScan.breaks_ones hbuf]
        rfl
      rw [htail, List.getElem?_cons_succ] at h
      have hmem := List.eq_of_mem_replicate (List.mem_of_getElem? h)
      cases hmem

/-- Zeros with two equal bytes in between. -/
def twoAt (t : UInt8) (i m : ℕ) : List UInt8 := zeros i ++ t :: t :: zeros m

theorem textPair_twoAt (hzero : text 0 = false) {t : UInt8} (ht : text t = true) {i j m : ℕ} :
    TextPair text (twoAt t i m) j ↔ j = i := by
  induction i generalizing j with
  | zero =>
      cases j with
      | zero => exact iff_of_true ⟨t, t, rfl, rfl, ht, ht⟩ rfl
      | succ j =>
          refine iff_of_false ?_ (by omega)
          rintro ⟨c, d, -, hd, -, htext⟩
          have hmem : d ∈ zeros m := List.mem_of_getElem? hd
          rw [List.eq_of_mem_replicate hmem, hzero] at htext
          cases htext
  | succ i ih =>
      cases j with
      | zero =>
          refine iff_of_false ?_ (by omega)
          rintro ⟨c, d, hc, -, htext, -⟩
          obtain rfl : 0 = c := Option.some.inj hc
          rw [hzero] at htext
          cases htext
      | succ j =>
          rw [Nat.add_right_cancel_iff]
          exact ih

/-- A read of one byte fills a buffer of one byte, so nothing is broken there. -/
theorem Schedule.breaks_of_le_one (hbuf : bufsize ≤ 1) (s : Schedule bufsize n) :
    s.breaks = List.replicate n false := by
  rw [Schedule.breaks, breaks_full s.pos fun count h => hbuf.trans (s.pos count h), s.sum_eq]

/-- Two schedules agree on all bytes only if they break at the same places. -/
theorem Schedule.breaks_eq (hzero : text 0 = false) {t : UInt8} (ht : text t = true)
    {s s' : Schedule bufsize n}
    (h : ∀ bytes : List UInt8, bytes.length = n →
      SameReport (s.report text bytes) (s'.report text bytes)) : s.breaks = s'.breaks := by
  have hfirst : ∀ s : Schedule bufsize n, 0 < n → s.breaks[0]? = some false := by
    intro s hn
    cases hcounts : s.counts with
    | nil =>
        have hsum := s.sum_eq
        rw [hcounts, List.sum_nil] at hsum
        omega
    | cons count counts =>
        rw [Schedule.breaks, hcounts]
        rfl
  refine List.ext_getElem? fun i => ?_
  by_cases hi : i < n
  · cases i with
    | zero => rw [hfirst s hi, hfirst s' hi]
    | succ i =>
        have hlen : (twoAt t i (n - i - 2)).length = n := by
          simp [twoAt, zeros]
          omega
        have hiff : s.breaks[i + 1]? = some false ↔ s'.breaks[i + 1]? = some false := by
          have hs := s.two_le_maxLength hzero hlen
          have hs' := s'.two_le_maxLength hzero hlen
          simp only [textPair_twoAt hzero ht, exists_eq_left] at hs hs'
          rw [← hs, ← hs', (h _ hlen).2]
        rw [List.getElem?_eq_getElem (by rwa [s.length_breaks]),
          List.getElem?_eq_getElem (by rwa [s'.length_breaks])] at hiff ⊢
        simp only [Option.some.injEq] at hiff ⊢
        exact Bool.eq_iff_iff.mpr (by simpa using not_congr hiff)
  · rw [List.getElem?_eq_none (by rw [s.length_breaks]; omega),
      List.getElem?_eq_none (by rw [s'.length_breaks]; omega)]

end Schedules

/-- Two schedules leave the same report if they break no run differently. A sequence
of bytes leaves the same report under all schedules exactly if the buffer holds one
byte only or no two bytes of text stand next to each other; two schedules leave the
same report for all sequences exactly if their breaks are the same. -/
theorem schedules_sameReport_iff {text : UInt8 → Bool} (hzero : text 0 = false)
    (htext : ∃ t, text t = true) (bufsize : ℕ) :
    (∀ (bytes : List UInt8) (s s' : Schedule bufsize bytes.length),
      (∀ i, TextPair text bytes i → s.breaks[i + 1]? = s'.breaks[i + 1]?) →
        SameReport (s.report text bytes) (s'.report text bytes)) ∧
      (∀ bytes : List UInt8,
        (∀ s s' : Schedule bufsize bytes.length,
          SameReport (s.report text bytes) (s'.report text bytes)) ↔
            bufsize ≤ 1 ∨ ∀ i, ¬ TextPair text bytes i) ∧
      ∀ (n : ℕ) (s s' : Schedule bufsize n),
        (∀ bytes : List UInt8, bytes.length = n →
          SameReport (s.report text bytes) (s'.report text bytes)) ↔ s.breaks = s'.breaks := by
  obtain ⟨t, ht⟩ := htext
  refine ⟨fun bytes s s' h => Schedule.sameReport_of_breaks hzero rfl h, fun bytes => ⟨?_, ?_⟩,
    fun n s s' => ⟨Schedule.breaks_eq hzero ht, fun h bytes hlen =>
      Schedule.sameReport_of_breaks hzero hlen fun i _ => by rw [h]⟩⟩
  · intro h
    by_contra hnot
    rw [not_or, not_le, not_forall_not] at hnot
    obtain ⟨hbuf, i, hi⟩ := hnot
    have hlt : i + 1 < bytes.length := by
      obtain ⟨-, d, -, hd, -⟩ := hi
      exact (List.getElem?_eq_some_iff.mp hd).1
    have htwo := ((Schedule.pair hlt hbuf).two_le_maxLength hzero rfl).mpr
      ⟨i, hi, breaks_pair hbuf i _⟩
    rw [(h (Schedule.pair hlt hbuf) (Schedule.ones _ hbuf.le)).2,
      Schedule.two_le_maxLength hzero _ rfl] at htwo
    obtain ⟨j, -, hj⟩ := htwo
    exact Schedule.breaks_ones hbuf hj
  · rintro (hbuf | hnone) s s'
    · exact Schedule.sameReport_of_breaks hzero rfl fun i _ => by
        rw [s.breaks_of_le_one hbuf, s'.breaks_of_le_one hbuf]
    · exact Schedule.sameReport_of_breaks hzero rfl fun i hi => absurd hi (hnone i)

theorem schedules_sameReport_threeBytes :
    isText 0 = false ∧ isText 97 = true ∧
      (∀ s s' : Schedule 4 3, SameReport (s.report isText [97, 0, 97])
        (s'.report isText [97, 0, 97])) := by
  have hzero : isText 0 = false := by decide
  have htext : isText 97 = true := by decide
  refine ⟨hzero, htext, ?_⟩
  refine ((schedules_sameReport_iff hzero ⟨97, htext⟩ 4).2.1 [97, 0, 97]).mpr (.inr ?_)
  rintro i ⟨c, d, hc, hd, htc, htd⟩
  match i with
  | 0 =>
      obtain rfl : 0 = d := Option.some.inj hd
      exact absurd htd (by decide)
  | 1 =>
      obtain rfl : 0 = c := Option.some.inj hc
      exact absurd htc (by decide)
  | i + 2 => simp at hd

/-- The text `abcd`. -/
def fourLetters : List UInt8 := [97, 98, 99, 100]

def oneRead : Schedule 4 fourLetters.length where
  counts := [4]
  sum_eq := rfl
  pos := by simp
  le := by simp

def twoReads : Schedule 4 fourLetters.length where
  counts := [2, 2]
  sum_eq := rfl
  pos := by simp
  le := by simp

/-- The string of four letters is lost when it comes in two reads. -/
theorem not_sameReport_twoReads :
    oneRead.report isText fourLetters = ⟨4, 1, 4⟩ ∧ twoReads.report isText fourLetters = ⟨0, 0, 2⟩ ∧
      ¬ SameReport (oneRead.report isText fourLetters) (twoReads.report isText fourLetters) := by
  have hone : oneRead.report isText fourLetters = ⟨4, 1, 4⟩ := by decide
  have htwo : twoReads.report isText fourLetters = ⟨0, 0, 2⟩ := by decide
  refine ⟨hone, htwo, fun h => ?_⟩
  rw [hone, htwo] at h
  exact absurd h.1 (by decide)

end TextScan

end OperatingSystems
