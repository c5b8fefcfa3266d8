import SnapshotArchive.Word

/-!
The leaves of the JSON notation over the bytes of a text: blanks, literals, numbers and strings. Each
reader answers what it read and the bytes that are left. Reading stops at the first problem: text that
is no JSON, a value of a wrong type, or an early end.
-/

namespace SnapshotArchive.Notation

/-- The first problem of a text. -/
inductive ReadError where
  /-- The text is not JSON. -/
  | malformed
  /-- A value does not have the type, or a member not the name, that is asked for. -/
  | mismatch
  /-- The text ends early. -/
  | truncated
  deriving DecidableEq

/-- Bytes that are left to read. -/
abbrev Bytes := List UInt8

/-- The byte of an ASCII character. -/
def ascii (c : Char) : UInt8 := UInt8.ofNat c.toNat

/-- The bytes of a text. -/
def bytesOf (s : String) : Bytes := s.toUTF8.toList

/-- Blank, tab, line feed and carriage return. -/
def isBlank (b : UInt8) : Bool := b == 0x20 || b == 0x09 || b == 0x0a || b == 0x0d

/-- What follows the blanks. -/
def skipBlanks (bs : Bytes) : Bytes := bs.dropWhile isBlank

/-- Decimal digits. -/
def isDigit (b : UInt8) : Bool := 0x30 ≤ b && b ≤ 0x39

/-- The value of a decimal digit. -/
def digitValue (b : UInt8) : Nat := b.toNat - 0x30

/-- Reads the rest of a literal. -/
def literal : (expected bs : Bytes) → Except ReadError Bytes
  | [], bs => .ok bs
  | _ :: _, [] => .error .truncated
  | e :: expected, b :: bs => if b = e then literal expected bs else .error .malformed

/-! ### Numbers

A number is a significand, which is held in a word, times a power of ten. Digits before the point that
no longer fit raise the power, digits after it that no longer fit are dropped. -/

/-- A number as far as it is read. -/
structure Scale where
  significand : Nat
  power : Int
  /-- A digit did not fit. -/
  full : Bool

/-- Takes one more digit before the point. -/
def Scale.whole (s : Scale) (b : UInt8) : Scale :=
  let next := s.significand * 10 + digitValue b
  if s.full || addressLimit ≤ next then { s with power := s.power + 1, full := true }
  else { s with significand := next }

/-- Takes one more digit after the point. -/
def Scale.fraction (s : Scale) (b : UInt8) : Scale :=
  let next := s.significand * 10 + digitValue b
  if s.full || addressLimit ≤ next then { s with full := true }
  else { s with significand := next, power := s.power - 1 }

/-- Whether the number passes the largest binary64 number. -/
def Scale.overflows (s : Scale) : Bool :=
  s.significand != 0 && decide (0 ≤ s.power) &&
    (decide (308 < s.power) ||
      (s.significand.toFloat * Float.ofScientific 1 false s.power.toNat).isInf)

/-- A number: a whole one that fits in a word, or another one. -/
inductive Number where
  | natural (n : Nat)
  | other
  deriving DecidableEq

/-- Ends a number that is not a plain whole number. -/
def endOther (s : Scale) (bs : Bytes) : Except ReadError (Number × Bytes) :=
  if s.overflows then .error .malformed else .ok (.other, bs)

/-- Reads the digits of an exponent; there is at least one. -/
def exponentDigits (s : Scale) (positive : Bool) : Bytes → Except ReadError (Number × Bytes)
  | [] => .error .truncated
  | b :: bs =>
    if isDigit b then
      let exponent : Int :=
        Int.ofNat ((bs.takeWhile isDigit).foldl (fun n d => n * 10 + digitValue d) (digitValue b))
      let power := if positive then s.power + exponent else s.power - exponent
      endOther { s with power } (bs.dropWhile isDigit)
    else .error .malformed

/-- Reads what follows the exponent mark. -/
def exponent (s : Scale) : Bytes → Except ReadError (Number × Bytes)
  | 0x2b :: bs => exponentDigits s true bs
  | 0x2d :: bs => exponentDigits s false bs
  | bs => exponentDigits s true bs

/-- Whether a byte marks an exponent. -/
def isExponentMark (b : UInt8) : Bool := b == ascii 'e' || b == ascii 'E'

/-- Reads what follows the point. -/
def fraction (s : Scale) : Bytes → Except ReadError (Number × Bytes)
  | [] => .error .truncated
  | b :: bs =>
    if isDigit b then
      let s := ((b :: bs).takeWhile isDigit).foldl Scale.fraction { s with full := false }
      match bs.dropWhile isDigit with
      | [] => endOther s []
      | c :: rest => if isExponentMark c then exponent s rest else endOther s (c :: rest)
    else .error .malformed

/-- Reads what follows the digits before the point. -/
def afterWhole (s : Scale) (positive : Bool) : Bytes → Except ReadError (Number × Bytes)
  | [] => finish []
  | b :: bs =>
    if b = ascii '.' then fraction s bs
    else if isExponentMark b then exponent s bs
    else finish (b :: bs)
where
  /-- Ends a whole number. -/
  finish (bs : Bytes) : Except ReadError (Number × Bytes) :=
    if s.full then endOther s bs
    else if positive then .ok (.natural s.significand, bs)
    else .ok (.other, bs)

/-- Reads a number without its sign. A zero in front stands alone. -/
def number (positive : Bool) : Bytes → Except ReadError (Number × Bytes)
  | [] => .error .truncated
  | b :: bs =>
    if b = ascii '0' then
      if bs.head?.any isDigit then .error .malformed else afterWhole ⟨0, 0, false⟩ positive bs
    else if isDigit b then
      afterWhole (((b :: bs).takeWhile isDigit).foldl Scale.whole ⟨0, 0, false⟩) positive
        (bs.dropWhile isDigit)
    else .error .malformed

/-! ### Strings -/

/-- The value of a hexadecimal digit. -/
def hexValue? (b : UInt8) : Option Nat :=
  if isDigit b then some (digitValue b)
  else if ascii 'a' ≤ b && b ≤ ascii 'f' then some (b.toNat - (ascii 'a').toNat + 10)
  else if ascii 'A' ≤ b && b ≤ ascii 'F' then some (b.toNat - (ascii 'A').toNat + 10)
  else none

/-- What is left after something was read. -/
abbrev Shorter (bs : Bytes) := { rest : Bytes // rest.length < bs.length }

/-- Reads four hexadecimal digits. -/
def fourDigits : (bs : Bytes) → Except ReadError (Nat × Shorter bs)
  | a :: b :: c :: d :: rest =>
    match hexValue? a, hexValue? b, hexValue? c, hexValue? d with
    | some a, some b, some c, some d =>
      .ok (((a * 16 + b) * 16 + c) * 16 + d, ⟨rest, by simp only [List.length_cons]; omega⟩)
    | _, _, _, _ => .error .malformed
  | _ => .error .truncated

/-- The bytes of a code point. -/
def codePoint (n : Nat) : Bytes := String.utf8EncodeChar (Char.ofNat n)

/-- Whether a UTF-16 unit opens a pair. -/
def opensPair (n : Nat) : Bool := 0xd800 ≤ n && n ≤ 0xdbff

/-- Whether a UTF-16 unit closes a pair. -/
def closesPair (n : Nat) : Bool := 0xdc00 ≤ n && n ≤ 0xdfff

/-- Reads the UTF-16 units of one character, from behind the first `u`. -/
def unicodeEscape (bs : Bytes) : Except ReadError (Bytes × Shorter bs) :=
  match fourDigits bs with
  | .error e => .error e
  | .ok (n, ⟨rest, h⟩) =>
    if closesPair n then .error .malformed
    else if opensPair n then
      -- the other half of the pair must follow as an escape of its own
      match rest, h with
      | [], _ => .error .truncated
      | [b], _ => .error (if b = ascii '\\' then .truncated else .malformed)
      | b :: u :: units, h =>
        if b = ascii '\\' && u = ascii 'u' then
          match fourDigits units with
          | .error e => .error e
          | .ok (m, ⟨rest, h'⟩) =>
            if closesPair m then
              .ok (codePoint (0x10000 + (n - 0xd800) * 0x400 + (m - 0xdc00)),
                ⟨rest, by simp only [List.length_cons] at h; omega⟩)
            else .error .malformed
        else .error .malformed
    else .ok (codePoint n, ⟨rest, h⟩)

/-- The byte that a letter stands for behind a backslash. -/
def simpleEscape? (b : UInt8) : Option UInt8 :=
  if b = ascii '"' || b = ascii '\\' || b = ascii '/' then some b
  else if b = ascii 'b' then some 0x08
  else if b = ascii 'f' then some 0x0c
  else if b = ascii 'n' then some 0x0a
  else if b = ascii 'r' then some 0x0d
  else if b = ascii 't' then some 0x09
  else none

/-- Reads what follows a backslash. -/
def escape : (bs : Bytes) → Except ReadError (Bytes × Shorter bs)
  | [] => .error .truncated
  | b :: rest =>
    if b = ascii 'u' then
      (unicodeEscape rest).map fun (read, ⟨left, h⟩) =>
        (read, ⟨left, by simp only [List.length_cons]; omega⟩)
    else match simpleEscape? b with
      | some read => .ok ([read], ⟨rest, by simp⟩)
      | none => .error .malformed

/-- Reads a string from behind its opening quote. -/
def string (bs : Bytes) : Except ReadError (Bytes × Bytes) :=
  match bs with
  | [] => .error .truncated
  | b :: rest =>
    if b = ascii '"' then .ok ([], rest)
    else if b = ascii '\\' then
      match escape rest with
      | .error e => .error e
      | .ok (read, ⟨left, _⟩) => (string left).map fun (more, left) => (read ++ more, left)
    else if b < 0x20 then .error .malformed
    else (string rest).map fun (more, left) => (b :: more, left)
termination_by bs.length
decreasing_by all_goals simp only [List.length_cons]; omega

/-! ### Values of a wanted type -/

/-- The problem with a value of another type: what is scalar is read to its end first. -/
def wrongType : Bytes → ReadError
  | [] => .truncated
  | b :: bs =>
    if b = ascii 'n' then after (literal (bytesOf "ull") bs)
    else if b = ascii 't' then after (literal (bytesOf "rue") bs)
    else if b = ascii 'f' then after (literal (bytesOf "alse") bs)
    else if b = ascii '-' then after (number false bs)
    else if isDigit b then after (number true (b :: bs))
    else if b = ascii '"' then after (string bs)
    else if b = ascii '[' || b = 0x7b then .mismatch
    else .malformed
where
  /-- A value that can be read is of the wrong type. -/
  after {α : Type} : Except ReadError α → ReadError
    | .ok _ => .mismatch
    | .error e => e

/-- Reads a whole number that fits in a word. -/
def count (bs : Bytes) : Except ReadError (Nat × Bytes) :=
  match skipBlanks bs with
  | [] => .error .truncated
  | b :: rest =>
    if isDigit b then
      match number true (b :: rest) with
      | .ok (.natural n, left) => .ok (n, left)
      | .ok (.other, _) => .error .mismatch
      | .error e => .error e
    else .error (wrongType (b :: rest))

/-- Reads a truth value. -/
def truth (bs : Bytes) : Except ReadError (Bool × Bytes) :=
  match skipBlanks bs with
  | [] => .error .truncated
  | b :: rest =>
    if b = ascii 't' then (literal (bytesOf "rue") rest).map (true, ·)
    else if b = ascii 'f' then (literal (bytesOf "alse") rest).map (false, ·)
    else .error (wrongType (b :: rest))

end SnapshotArchive.Notation
