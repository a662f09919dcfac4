import Mathlib.Data.Nat.Basic

/-!
# Text on standard output

The programs write to `cout` words and numbers of type `int`. A text is the list
of its bytes. A number is written in base 10 without leading zeros, and with a
minus sign where it is negative.
-/

namespace OperatingSystems

namespace Output

/-- The bytes of a word. -/
def ascii (s : String) : List UInt8 := s.toList.map fun c => UInt8.ofNat c.toNat

/-- The bytes of a number without a sign. -/
def digits (n : ℕ) : List UInt8 := (Nat.toDigits 10 n).map fun c => UInt8.ofNat c.toNat

/-- The bytes of a number. -/
def decimal (n : ℤ) : List UInt8 := (if n < 0 then [45] else []) ++ digits n.natAbs

example : decimal (-120) = ascii "-120" := by decide

end Output

end OperatingSystems
