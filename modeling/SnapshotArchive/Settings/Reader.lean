import SnapshotArchive.Settings.Basic
import SnapshotArchive.Settings.Notation

/-!
Reading settings from JSON. They are written as members by name, or as a list in the order of the
fields; what is left out keeps its standard value. A name that is unknown or occurs twice is a
mismatch as soon as it is read.
-/

namespace SnapshotArchive

open Notation

namespace Settings

/-- A field of the settings. -/
inductive Field where
  | requestedBase | regionAlignment | placeholderBytes | logMap
  deriving DecidableEq

/-- The fields, in order. -/
def fields : List Field := [.requestedBase, .regionAlignment, .placeholderBytes, .logMap]

/-- The name of a field. -/
def Field.name : Field → String
  | requestedBase => "requested_base_address"
  | regionAlignment => "region_alignment"
  | placeholderBytes => "placeholder_estimate_bytes"
  | logMap => "log_map"

/-- The field of a name. -/
def Field.ofBytes? (name : Bytes) : Option Field := fields.find? fun f => bytesOf f.name == name

/-- Reads the value of a field. -/
def Field.read (f : Field) (s : Settings) (bs : Bytes) : Except ReadError (Settings × Bytes) :=
  match f with
  | requestedBase => (count bs).map fun (n, rest) => ({ s with requestedBase := UInt64.ofNat n }, rest)
  | regionAlignment => (count bs).map fun (n, rest) => ({ s with regionAlignment := n }, rest)
  | placeholderBytes => (count bs).map fun (n, rest) => ({ s with placeholderBytes := n }, rest)
  | logMap => (truth bs).map fun (b, rest) => ({ s with logMap := b }, rest)

/-- Reads a name and the colon behind it, from behind the opening quote; the name must be one of
    `missing`. -/
def memberName (missing : List Field) (bs : Bytes) : Except ReadError (Field × Bytes) := do
  let (name, rest) ← string bs
  match Field.ofBytes? name with
  | none => throw .mismatch
  | some f =>
    if f ∉ missing then throw .mismatch
    match skipBlanks rest with
    | [] => throw .truncated
    | b :: rest => if b = ascii ':' then return (f, rest) else throw .malformed

/-- What stands between members. -/
inductive Gap where
  | name (rest : Bytes)
  | close (rest : Bytes)

/-- Reads up to the next name, or to the closing bracket. -/
def memberGap (first : Bool) (bs : Bytes) : Except ReadError Gap :=
  match skipBlanks bs with
  | [] => .error .truncated
  | b :: rest =>
    if b = 0x7d then .ok (.close rest)
    else if first then if b = ascii '"' then .ok (.name rest) else .error .malformed
    else if b = ascii ',' then
      match skipBlanks rest with
      | [] => .error .truncated
      | c :: rest => if c = ascii '"' then .ok (.name rest) else .error .malformed
    else .error .malformed

/-- Reads members; each takes one of `room` places, of which there is one for every missing field. -/
def members (s : Settings) (missing : List Field) (first : Bool) :
    (room : Nat) → Bytes → Except ReadError (Settings × Bytes)
  | room, bs => do
    match ← memberGap first bs with
    | .close rest => return (s, rest)
    | .name rest =>
      let (f, rest) ← memberName missing rest
      -- `room` runs out only together with `missing`, when no name is left to be accepted
      match room with
      | 0 => throw .mismatch
      | room + 1 =>
        let (s, rest) ← f.read s rest
        members s (missing.erase f) false room rest

/-- What stands between elements. -/
inductive Step where
  | element (rest : Bytes)
  | done

/-- Reads up to the next element; at the closing bracket there is none. -/
def elementGap (first : Bool) (bs : Bytes) : Except ReadError Step :=
  match skipBlanks bs with
  | [] => .error .truncated
  | b :: rest =>
    if b = ascii ']' then .ok .done
    else if first then .ok (.element (b :: rest))
    else if b = ascii ',' then
      match skipBlanks rest with
      | [] => .error .truncated
      | c :: rest => if c = ascii ']' then .error .malformed else .ok (.element (c :: rest))
    else .error .malformed

/-- Reads elements as the given fields. -/
def elements (s : Settings) (first : Bool) : List Field → Bytes → Except ReadError (Settings × Bytes)
  | [], bs => .ok (s, bs)
  | f :: fs, bs => do
    match ← elementGap first bs with
    | .done => return (s, bs)
    | .element rest =>
      let (s, rest) ← f.read s rest
      elements s false fs rest

/-- Reads the closing bracket of a list. -/
def listEnd (bs : Bytes) : Except ReadError Bytes :=
  match skipBlanks bs with
  | [] => .error .truncated
  | b :: rest => if b = ascii ']' then .ok rest else .error .malformed

/-- Reads settings at the start of a text. -/
def value (bs : Bytes) : Except ReadError (Settings × Bytes) := do
  match skipBlanks bs with
  | [] => throw .truncated
  | b :: rest =>
    if b = 0x7b then members standard fields true fields.length rest
    else if b = ascii '[' then
      let (s, rest) ← elements standard true fields rest
      return (s, ← listEnd rest)
    else throw (wrongType (b :: rest))

/-- Reads a whole text as settings. -/
def read (text : String) : Except ReadError Settings := do
  let (s, rest) ← value (bytesOf text)
  match skipBlanks rest with
  | [] => return s
  | _ :: _ => throw .malformed

/-- Why a settings file cannot be used. -/
inductive LoadError where
  | missing
  | notText
  | unreadable (e : ReadError)
  | unusable (e : SettingsError)
  deriving DecidableEq

/-- What was being done to the file at `path` when it failed. -/
def LoadError.activity (path : String) : LoadError → String
  | missing | notText => "Read build configuration " ++ path
  | unreadable _ => "Parse build configuration " ++ path
  | unusable _ => "Validate build configuration " ++ path

/-- Reads and validates the contents of a settings file, if there is one. -/
def load (contents? : Option ByteArray) : Except LoadError Settings :=
  match contents? with
  | none => .error .missing
  | some contents =>
    match String.fromUTF8? contents with
    | none => .error .notText
    | some text =>
      match read text with
      | .error e => .error (.unreadable e)
      | .ok s =>
        match s.validate with
        | .error e => .error (.unusable e)
        | .ok () => .ok s

end Settings

end SnapshotArchive
