/-!
Kinds of source objects, what happens to an object that is found, and the two regions of an archive.
Kinds are ordered as they are listed.
-/

namespace SnapshotArchive

/-- Kind of a source object, as the host reports it. -/
inductive ObjectKind where
  | typeDescriptor | arrayDescriptor | procedure | procedureBody | constantPool
  | internedString | array | profileData | invocationCounters | other
  deriving DecidableEq

namespace ObjectKind

/-- Every kind, in order. -/
def all : List ObjectKind :=
  [typeDescriptor, arrayDescriptor, procedure, procedureBody, constantPool,
   internedString, array, profileData, invocationCounters, other]

/-- Position of the kind in the order. -/
def index : ObjectKind → Nat
  | typeDescriptor => 0
  | arrayDescriptor => 1
  | procedure => 2
  | procedureBody => 3
  | constantPool => 4
  | internedString => 5
  | array => 6
  | profileData => 7
  | invocationCounters => 8
  | other => 9

/-- Name of the kind in reports. -/
def name : ObjectKind → String
  | typeDescriptor => "TypeDescriptor"
  | arrayDescriptor => "ArrayDescriptor"
  | procedure => "Procedure"
  | procedureBody => "ProcedureBody"
  | constantPool => "ConstantPool"
  | internedString => "InternedString"
  | array => "Array"
  | profileData => "ProfileData"
  | invocationCounters => "InvocationCounters"
  | other => "Other"

/-- The kind of a name. -/
def ofName? (s : String) : Option ObjectKind := all.find? (·.name == s)

/-- Whether objects of the kind describe a type. -/
def isTypeDescriptor : ObjectKind → Bool
  | typeDescriptor | arrayDescriptor => true
  | _ => false

/-- Whether objects of the kind can be computed anew after a restore, so that they are never
    archived. -/
def isTransient : ObjectKind → Bool
  | profileData | invocationCounters => true
  | _ => false

end ObjectKind

/-- What happens to an object that is found: it is copied into the archive, it stays where it is in
    the dependency archive, or pointers to it become null. -/
inductive Disposition where
  | copy | aliasToExisting | nullOut
  deriving DecidableEq

/-- Name of a disposition. -/
def Disposition.name : Disposition → String
  | .copy => "Copy"
  | .aliasToExisting => "AliasToExisting"
  | .nullOut => "NullOut"

/-- The region an object is copied into: the one that stays writable after a restore, or the one
    that is frozen. -/
inductive RegionKind where
  | mutable | readOnly
  deriving DecidableEq

namespace RegionKind

/-- Name of the region in messages. -/
def name : RegionKind → String
  | mutable => "mutable"
  | readOnly => "read-only"

/-- Short name of the region, for the archive map. -/
def shortName : RegionKind → String
  | mutable => "rw"
  | readOnly => "ro"

/-- The region of an object by its read-only flag. -/
def ofReadOnly : Bool → RegionKind
  | true => readOnly
  | false => mutable

end RegionKind

end SnapshotArchive
