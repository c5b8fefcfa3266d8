/-!
Text of numbers in reports: lower-case hexadecimal with and without leading zeros, and columns
padded with blanks.
-/

namespace SnapshotArchive.Text

/-- Repeats a character. -/
def fill (n : Nat) (c : Char) : String := String.ofList (List.replicate n c)

/-- Puts `s` at the right end of a column of `width` characters. -/
def padLeft (width : Nat) (s : String) : String := fill (width - s.length) ' ' ++ s

/-- Puts `s` at the left end of a column of `width` characters. -/
def padRight (width : Nat) (s : String) : String := s ++ fill (width - s.length) ' '

/-- Puts zeros in front of digits until there are `width`. -/
def padZeros (width : Nat) (digits : String) : String := fill (width - digits.length) '0' ++ digits

/-- Hexadecimal digits, without leading zeros. -/
def hexDigits (n : Nat) : String := String.ofList (Nat.toDigits 16 n)

/-- Hexadecimal digits behind `0x`, without leading zeros. -/
def hex (n : Nat) : String := "0x" ++ hexDigits n

/-- The sixteen hexadecimal digits of a word. -/
def hexWord (n : Nat) : String := padZeros 16 (hexDigits n)

/-- The sixteen hexadecimal digits of an address, behind `0x`. -/
def hexAddress (n : Nat) : String := "0x" ++ hexWord n

/-- The two hexadecimal digits of a byte. -/
def hexByte (b : UInt8) : String := padZeros 2 (hexDigits b.toNat)

end SnapshotArchive.Text
