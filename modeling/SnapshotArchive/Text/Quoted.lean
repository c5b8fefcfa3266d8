import SnapshotArchive.Text.Hex
import SnapshotArchive.Text.Printable

/-!
Names in double quotes. Quotes, backslashes and the usual control characters get a backslash;
characters that are not shown as they are become their code point in hexadecimal.
-/

namespace SnapshotArchive.Text

/-- The code point of a character, in hexadecimal between brackets. -/
def codePoint (c : Char) : String := "\\u\x7b" ++ hexDigits c.toNat ++ "\x7d"

/-- One character inside quotes. -/
def quotedChar (c : Char) : String :=
  if c = '\t' then "\\t"
  else if c = '\r' then "\\r"
  else if c = '\n' then "\\n"
  else if c = '"' then "\\\""
  else if c = '\\' then "\\\\"
  else if c.toNat = 0 then "\\0"
  else if isShown c then String.singleton c
  else codePoint c

/-- A text in double quotes. -/
def quoted (s : String) : String := "\"" ++ String.join (s.toList.map quotedChar) ++ "\""

end SnapshotArchive.Text
