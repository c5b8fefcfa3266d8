import SnapshotArchive.Buffer
import SnapshotArchive.Ledger

/-!
Entries of the map of an archive. All addresses are requested ones, so that maps of repeated builds can
be compared line by line. A dump shows memory as words, four to a line; a last word of which only some
bytes are dumped has zeros above them.
-/

namespace SnapshotArchive

open Text

/-- Bytes on a line of a dump. -/
def dumpWidth : Nat := 32

/-- An entry of the map. -/
inductive MapEntry where
  | title (incremental : Bool)
  | region (kind : RegionKind) (bottom top used : Nat)
  | object (place : Nat) (kind : ObjectKind) (size : Nat) (description : String)
  | misc (place size : Nat)
  /-- The bytes of memory from offset `start` up to `stop`; the first has the address `place`. -/
  | memory (place : Nat) (words : Words) (start stop : Nat)
  | bitmap (pointers : Ledger)
  | bitmapBytes (pointers : Ledger)
  | close

namespace MapEntry

/-- A list in pieces of `n`. -/
def chunks {α : Type} (n : Nat) (xs : List α) : List (List α) :=
  (List.range (ceilDiv xs.length n)).map fun i => (xs.drop (n * i)).take n

/-- The words of a dumped line. -/
def lineWords (bytes : List UInt8) : String :=
  String.intercalate " " ((chunks wordBytes bytes).map fun w => hexWord (Words.ofBytes w))

/-- A dumped line: the address of its first byte and its words. -/
def dumpLine (place : Nat) (bytes : List UInt8) : String :=
  hexAddress place ++ ": " ++ lineWords bytes

/-- The bytes of memory from offset `start`, `count` of them. -/
def memoryBytes (words : Words) (start count : Nat) : List UInt8 :=
  (List.range count).map fun i => words.byteAt (start + i)

/-- The lines of a memory dump. -/
def dumpMemory (place : Nat) (words : Words) (start stop : Nat) : List String :=
  (List.range (ceilDiv (stop - start) dumpWidth)).map fun i =>
    let offset := dumpWidth * i
    dumpLine (place + offset)
      (memoryBytes words (start + offset) (min dumpWidth (stop - start - offset)))

/-- The lines of a dump of bytes that lie from address zero on. -/
def dumpBytes (bytes : List UInt8) : List String :=
  (chunks dumpWidth bytes).zipIdx.map fun (line, i) => dumpLine (dumpWidth * i) line

/-- Opens the line of a region or of the bitmap. -/
def heading (name : String) : String := "[" ++ padRight 18 name ++ " "

/-- A number of bytes in its column. -/
def byteColumn (n : Nat) : String := padLeft 9 (toString n) ++ " bytes]"

/-- Opens the line of something at an address. -/
def mark (place : Nat) : String := hexAddress place ++ ": @@ "

/-- The lines of an entry. -/
def lines : MapEntry → List String
  | title incremental => [(if incremental then "Incremental" else "Full") ++ " archive map"]
  | region kind bottom top used =>
    [heading (kind.shortName ++ " region") ++ hexAddress bottom ++ " - " ++ hexAddress top ++ " " ++
      byteColumn used]
  | object place kind size description =>
    [mark place ++ kind.name ++ " " ++ toString size ++ " " ++ description]
  | misc place size => [mark place ++ "Misc data " ++ toString size ++ " bytes"]
  | memory place words start stop => dumpMemory place words start stop
  | bitmap pointers => [heading "bitmap" ++ byteColumn (ceilDiv pointers.len 8)]
  | bitmapBytes pointers => dumpBytes pointers.bytes
  | close => ["[End of archive map]"]

/-- Whether an entry shows contents, which only the most detailed maps do. -/
def isDump : MapEntry → Bool
  | memory .. | bitmapBytes _ => true
  | _ => false

end MapEntry

end SnapshotArchive
