import OperatingSystems.Run.Ends
import OperatingSystems.TextScan.Worker

/-!
# What a worker reports

The message of `sumthread` in terms of the bytes of its chunk, wherever the chunk
lies in the file: the pieces of text of at least four bytes, the longest prefix and
the longest suffix of text, and the longest piece. Pieces end where the chunk ends.
-/

namespace OperatingSystems

namespace TextScan

open OperatingSystems.Run

/-- The bytes between two others. -/
theorem bytesBetween_eq {pchFile before chunk after : List UInt8} {byteFrom byteTo : ℤ}
    (hfile : pchFile = before ++ chunk ++ after) (hfrom : byteFrom = before.length)
    (hto : byteTo = before.length + chunk.length - 1) :
    bytesBetween pchFile byteFrom byteTo = chunk := by
  have hlength : (byteTo + 1 - byteFrom).toNat = chunk.length := by omega
  rw [bytesBetween, hlength, hfrom, Int.toNat_natCast, hfile, List.append_assoc, List.drop_left,
    List.take_left]

/-- The message that a worker sends describes its chunk. -/
theorem sumthread_chunk (text : UInt8 → Bool) (file : File) (before chunk after : List UInt8)
    (hfile : file.bytes = before ++ chunk ++ after) (message : Msg)
    (htype : message.type = .range) (hfrom : message.value1 = before.length)
    (hto : message.value2 = before.length + chunk.length - 1) :
    ∃ (pieces : List (List UInt8)) (charsAtBegin charsAtEnd maxLength : ℕ),
      sumthread text file.bytes message = some { message with
        type := .alldone
        value1 := (pieces.countP fun r => 4 ≤ r.length : ℕ)
        value2 := charsAtBegin
        value3 := charsAtEnd
        value4 := maxLength } ∧
      Pieces text chunk pieces ∧
      IsLongest (fun x => x <+: chunk ∧ ∀ c ∈ x, text c = true) charsAtBegin ∧
      IsLongest (fun x => x <:+ chunk ∧ ∀ c ∈ x, text c = true) charsAtEnd ∧
      (pieces = [] → maxLength = 0) ∧ (pieces ≠ [] → IsLongest (· ∈ pieces) maxLength) := by
  have hpieces := pieces_runs text chunk
  refine ⟨_, leading text chunk, trailing text chunk, longest text chunk, ?_, hpieces,
    isLongest_leading text chunk, isLongest_trailing text chunk, hpieces.longest_eq_zero,
    hpieces.isLongest⟩
  rw [sumthread_eq htype, Msg.bytes, bytesBetween_eq hfile hfrom hto, answer,
    hpieces.strings_eq (by decide)]

/-- A chunk that cuts off the first letter of the text `aa`, a zero, `aa`. -/
theorem sumthread_chunk_gapFile :
    sumthread isText gapFile.bytes ⟨0, .range, 1, 4, 0, 0⟩ = some ⟨0, .alldone, 0, 1, 2, 2⟩ ∧
      IsLongest (fun x => x <+: [97, 0, 97, 97] ∧ ∀ c ∈ x, isText c = true) 1 ∧
      IsLongest (fun x => x <:+ [97, 0, 97, 97] ∧ ∀ c ∈ x, isText c = true) 2 := by
  have hvalues : sumthread isText gapFile.bytes ⟨0, .range, 1, 4, 0, 0⟩ =
      some ⟨0, .alldone, 0, 1, 2, 2⟩ := by decide
  obtain ⟨pieces, charsAtBegin, charsAtEnd, maxLength, hreply, -, hbegin, hend, -⟩ :=
    sumthread_chunk isText gapFile [97] [97, 0, 97, 97] [] rfl ⟨0, .range, 1, 4, 0, 0⟩ rfl rfl
      (by decide)
  rw [hvalues] at hreply
  injection hreply with hreply
  injection hreply with _ _ _ hbegins hends _
  obtain rfl : charsAtBegin = 1 := by omega
  obtain rfl : charsAtEnd = 2 := by omega
  exact ⟨hvalues, hbegin, hend⟩

end TextScan

end OperatingSystems
