import SnapshotArchive.Kind
import SnapshotArchive.Word
import SnapshotArchive.Text.Hex

/-!
Why a build stops. A build error is an answer of the library; a fault is a broken promise of the
caller, such as an index past the end, and has no answer to give.
-/

namespace SnapshotArchive

open Text (hex)

/-- A defect of the build or of its host, noticed while building. -/
inductive Violation where
  | unresolvedPointer (source : Word)
  | duplicateRegistration (source : Word)
  | duplicateOutput (output : Word)
  | unknownOutput (output : Word)
  | estimateTooSmall (label : String) (estimate used : Nat)
  | pointerOutOfRange (offset : Nat) (value : Word)
  | relocatedOutOfRange (value relocated : Word)
  | badField (object field : Word) (size : Nat)
  | inconsistentMutability (source : Word)
  | duplicateInternedString (source : Word)
  | substituteNotArchived (former substitute : Word)
  | copiedTwice (kind : ObjectKind) (object : Word)
  | slotOutsideBuffer (slot : Word)
  | clearingLivePointer (slot : Word)
  | outOfOrder (step : String)
  deriving DecidableEq

/-- A setting that cannot be used. -/
inductive SettingsError where
  | regionAlignment (alignment : Nat)
  | unalignedBase (base : Nat)
  deriving DecidableEq

/-- Why a build operation fails. -/
inductive BuildError where
  | outOfSpace (region : RegionKind) (requested available : Nat)
  | reservationFailed (bytes align : Nat)
  | baseAddressTooHigh (base bottom top : Nat)
  | sessionActive
  | settings (error : SettingsError)
  | invariant (violation : Violation)
  deriving DecidableEq

/-- A promise that the caller broke. -/
inductive Fault where
  /-- A ledger was asked for a bit that it does not have. -/
  | ledgerIndex (index : Nat)
  /-- An object without words was asked for. -/
  | emptyObject
  /-- Memory was accessed past its end. -/
  | outOfBounds
  deriving DecidableEq

/-- Why an operation does not end well. -/
inductive Failure where
  | error (e : BuildError)
  | fault (f : Fault)
  deriving DecidableEq

instance : Coe Violation BuildError := ⟨.invariant⟩
instance : Coe BuildError Failure := ⟨.error⟩
instance : Coe Violation Failure := ⟨fun v => .error (.invariant v)⟩

/-- Text of a violation. -/
def Violation.message : Violation → String
  | unresolvedPointer source =>
    "Pointer " ++ hex source.toNat ++ " is used but its target has not been archived"
  | duplicateRegistration source =>
    "Source object " ++ hex source.toNat ++ " is already registered"
  | duplicateOutput output =>
    "Output address " ++ hex output.toNat ++ " is already mapped to a source object"
  | unknownOutput output =>
    "Address " ++ hex output.toNat ++ " is not the output address of any source object"
  | estimateTooSmall label estimate used =>
    label ++ " estimate of " ++ toString estimate ++ " bytes is smaller than the " ++
      toString used ++ " bytes used"
  | pointerOutOfRange offset value =>
    "Pointer " ++ hex value.toNat ++ " at buffer offset " ++ hex offset ++
      " lies neither in the output buffer nor in the mapped dependency archive"
  | relocatedOutOfRange value relocated =>
    "Pointer " ++ hex value.toNat ++ " relocated to " ++ hex relocated.toNat ++
      ", outside of the requested archive range"
  | badField object field size =>
    "Field " ++ hex field.toNat ++ " is not a word-aligned field of the " ++ toString size ++
      "-byte object at " ++ hex object.toNat
  | inconsistentMutability source =>
    "Object " ++ hex source.toNat ++ " is referenced as both mutable and read-only"
  | duplicateInternedString source =>
    "Interned string " ++ hex source.toNat ++ " was gathered twice"
  | substituteNotArchived former substitute =>
    "Regenerated object " ++ hex substitute.toNat ++ " (replacing " ++ hex former.toNat ++
      ") was never copied into the archive"
  | copiedTwice kind object =>
    kind.name ++ " object " ++ hex object.toNat ++ " was copied twice"
  | slotOutsideBuffer slot =>
    "Slot at " ++ hex slot.toNat ++ " lies outside of the output buffer"
  | clearingLivePointer slot =>
    "Slot at " ++ hex slot.toNat ++ " is cleared from the ledger but holds a pointer"
  | outOfOrder step =>
    "Pipeline step " ++ step ++ " ran out of order"

/-- Text of a settings error. -/
def SettingsError.message : SettingsError → String
  | regionAlignment alignment =>
    "Region alignment " ++ toString alignment ++ " is not a power of two of at least a word"
  | unalignedBase base =>
    "Requested base address " ++ hex base ++ " is not aligned to the region alignment"

/-- Text of a build error. -/
def BuildError.message : BuildError → String
  | outOfSpace region requested available =>
    "Unable to allocate " ++ toString requested ++ " bytes from the " ++ region.name ++
      " region (" ++ toString available ++
      " bytes left); reduce the number of archived objects"
  | reservationFailed bytes align =>
    "Unable to reserve an output buffer of " ++ toString bytes ++ " bytes aligned to " ++
      toString align ++
      " bytes; reduce the size advisories or the number of archived objects"
  | baseAddressTooHigh base bottom top =>
    "Requested base address " ++ hex base ++ " is too high for an archive spanning [" ++
      hex bottom ++ " - " ++ hex top ++ "]; rebuild with a lower requested_base_address"
  | sessionActive => "Another archive build session is active on this thread"
  | settings error => "Invalid configuration: " ++ error.message
  | invariant violation => "Archive builder invariant violated: " ++ violation.message

/-- Text of a fault, where it has one. -/
def Fault.message? : Fault → Option String
  | ledgerIndex index => some ("Ledger index " ++ toString index ++ " out of bounds")
  | emptyObject => some "Objects must have at least one word"
  | outOfBounds => none

end SnapshotArchive
