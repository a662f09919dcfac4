import OperatingSystems.TextScan.Scan

/-!
# Buffered reading

`regular_read` reads the file block by block into a buffer of `BUFSIZE` bytes
and scans the whole buffer each time, whatever `read` returned. The buffer is
zero before every `read`, so behind a short block the scan runs over zeros.
-/

namespace OperatingSystems

namespace TextScan

/-- The data that the calls of `read` deliver before the one that returns zero:
the bytes of the file, in blocks of at most `bufsize` bytes. -/
structure Reads (bufsize : ℕ) (file : File) where
  blocks : List (List UInt8)
  flatten_eq : blocks.flatten = file.bytes
  ne_nil : ∀ data ∈ blocks, data ≠ []
  length_le : ∀ data ∈ blocks, data.length ≤ bufsize

/-- Every `read` but the last fills the buffer. -/
def Reads.Full {bufsize : ℕ} {file : File} (reads : Reads bufsize file) : Prop :=
  ∀ data ∈ reads.blocks.dropLast, data.length = bufsize

/-- The blocks that `read` delivers when it fills the buffer as long as it can. -/
def fullBlocks (bufsize : ℕ) (hpos : 0 < bufsize) (bytes : List UInt8) : List (List UInt8) :=
  if bytes = [] then []
  else bytes.take bufsize :: fullBlocks bufsize hpos (bytes.drop bufsize)
termination_by bytes.length
decreasing_by
  rename_i hne
  have hlen := List.length_pos_iff.mpr hne
  rw [List.length_drop]
  omega

theorem flatten_fullBlocks {bufsize : ℕ} (hpos : 0 < bufsize) (bytes : List UInt8) :
    (fullBlocks bufsize hpos bytes).flatten = bytes := by
  fun_induction fullBlocks bufsize hpos bytes with
  | case1 => rfl
  | case2 bytes hne ih => rw [List.flatten_cons, ih, List.take_append_drop]

theorem mem_fullBlocks {bufsize : ℕ} (hpos : 0 < bufsize) {bytes data : List UInt8}
    (h : data ∈ fullBlocks bufsize hpos bytes) : data ≠ [] ∧ data.length ≤ bufsize := by
  fun_induction fullBlocks bufsize hpos bytes with
  | case1 => simp at h
  | case2 bytes hne ih =>
      rcases List.mem_cons.mp h with rfl | h
      · exact ⟨by simp [hne, hpos.ne'], by simp⟩
      · exact ih h

/-- `read` on a regular file. -/
def fullReads (bufsize : ℕ) (hpos : 0 < bufsize) (file : File) : Reads bufsize file where
  blocks := fullBlocks bufsize hpos file.bytes
  flatten_eq := flatten_fullBlocks hpos file.bytes
  ne_nil := fun _ hdata => (mem_fullBlocks hpos hdata).1
  length_le := fun _ hdata => (mem_fullBlocks hpos hdata).2

/-- `memset(buf, '\0', BUFSIZE)`. -/
def zeros (bufsize : ℕ) : List UInt8 := List.replicate bufsize 0

/-- The buffer after `read` has stored the data at its beginning. -/
def fill (buf data : List UInt8) : List UInt8 := data ++ buf.drop data.length

section Reader

variable (text : UInt8 → Bool) (bufsize : ℕ)

/-- The loop of `regular_read`, from a buffer on. -/
def readLoop (buf : List UInt8) (r : Counters) : List (List UInt8) → Counters
  | [] => r
  | data :: blocks =>
      readLoop (zeros bufsize) (scan text r (fill buf data)) blocks

/-- `regular_read`. -/
def regularRead {file : File} (reads : Reads bufsize file) (r : Counters) :
    Ending × Counters :=
  (.returned file.size, readLoop text bufsize (zeros bufsize) r reads.blocks)

end Reader

/-- The reports of two readers agree: `main` prints `num_strings` and
`max_length`, and nothing reads `str_length` after the loop. -/
def SameReport (r r' : Counters) : Prop :=
  r.numStrings = r'.numStrings ∧ r.maxLength = r'.maxLength

section Padding

variable {text : UInt8 → Bool} {bufsize : ℕ} {r : Counters}

theorem fill_zeros_of_full {data : List UInt8} (h : data.length = bufsize) :
    fill (zeros bufsize) data = data := by
  rw [fill, zeros, List.drop_of_length_le (by rw [List.length_replicate, h]), List.append_nil]

theorem fill_zeros (data : List UInt8) :
    fill (zeros bufsize) data = data ++ zeros (bufsize - data.length) := by
  rw [fill, zeros, List.drop_replicate]
  rfl

/-- A byte that is not text ends the run and counts nothing. -/
theorem sameReport_scanByte {c : UInt8} (hc : text c = false) :
    SameReport (scanByte text r c) r := by
  simp [SameReport, scanByte, hc]

/-- The zeros behind a short block count nothing. -/
theorem sameReport_scan_zeros (hzero : text 0 = false) (n : ℕ) :
    SameReport (scan text r (zeros n)) r := by
  induction n with
  | zero => exact ⟨rfl, rfl⟩
  | succ n ih =>
      rw [zeros, List.replicate_succ', scan_concat]
      have hstep := sameReport_scanByte (r := scan text r (zeros n)) hzero
      exact ⟨hstep.1.trans ih.1, hstep.2.trans ih.2⟩

/-- Up to the zeros at the end, the loop scans the bytes of the blocks in order. -/
theorem sameReport_readLoop (hzero : text 0 = false) {blocks : List (List UInt8)}
    (hfull : ∀ data ∈ blocks.dropLast, data.length = bufsize) :
    SameReport (readLoop text bufsize (zeros bufsize) r blocks) (scan text r blocks.flatten) := by
  induction blocks generalizing r with
  | nil => exact ⟨rfl, rfl⟩
  | cons data blocks ih =>
      cases blocks with
      | nil =>
          rw [readLoop, readLoop, fill_zeros, scan_append, List.flatten_singleton]
          exact sameReport_scan_zeros hzero _
      | cons data' blocks =>
          rw [readLoop, fill_zeros_of_full (hfull data List.mem_cons_self), List.flatten_cons,
            scan_append]
          exact ih fun d hd => hfull d (List.mem_cons_of_mem data hd)

/-- Buffered reading of a regular file leaves the same report as the scan of the
mapped file, for every size of the buffer. -/
theorem regularRead_sameReport {file : File} {reads : Reads bufsize file}
    (hfull : reads.Full) (hzero : text 0 = false) :
    SameReport (regularRead text bufsize reads Counters.start).2
      (mmapRegularRead text file Counters.start).2 := by
  have hloop := sameReport_readLoop (r := Counters.start) hzero hfull
  rw [reads.flatten_eq] at hloop
  by_cases hempty : file.bytes = []
  · rw [hempty, scan_nil] at hloop
    rwa [mmapRegularRead, if_pos hempty]
  · rwa [mmapRegularRead, if_neg hempty]

end Padding

/-- A file of six bytes, read in blocks of four. -/
def sixBytes : File := ⟨[97, 98, 99, 100, 101, 102], by decide⟩

def sixBytesReads : Reads 4 sixBytes where
  blocks := [[97, 98, 99, 100], [101, 102]]
  flatten_eq := rfl
  ne_nil := by decide
  length_le := by decide

/-- The run crosses the boundary of the blocks, and two zeros follow it. -/
theorem regularRead_sameReport_sixBytes :
    regularRead isText 4 sixBytesReads Counters.start = (.returned 6, ⟨0, 1, 6⟩) ∧
      SameReport (regularRead isText 4 sixBytesReads Counters.start).2
        (mmapRegularRead isText sixBytes Counters.start).2 := by
  refine ⟨by decide, ?_⟩
  apply regularRead_sameReport
  · unfold Reads.Full
    decide
  · decide

end TextScan

end OperatingSystems
