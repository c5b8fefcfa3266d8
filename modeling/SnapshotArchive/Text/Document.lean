/-!
Documents of named members in the notation of JSON, written over several lines with two blanks for
each level, or on one line.
-/

namespace SnapshotArchive.Text

/-- A count, a truth value, or members in order. -/
inductive Document where
  | count (n : Nat)
  | truth (b : Bool)
  | members (fields : List (String × Document))

namespace Document

/-- The bracket that opens members. -/
def opening : String := "\x7b"

/-- The bracket that closes members. -/
def closing : String := "\x7d"

/-- Two blanks for each level. -/
def indent (level : Nat) : String := String.ofList (List.replicate (2 * level) ' ')

mutual

/-- The document on lines of its own; its first line is not indented. -/
def pretty (level : Nat) : Document → String
  | count n => toString n
  | truth b => toString b
  | members fields =>
    match prettyFields (level + 1) fields with
    | [] => opening ++ closing
    | lines =>
      opening ++ "\n" ++ String.intercalate ",\n" lines ++ "\n" ++ indent level ++ closing

/-- Each member with its name, indented. -/
def prettyFields (level : Nat) : List (String × Document) → List String
  | [] => []
  | (name, value) :: rest =>
    (indent level ++ "\"" ++ name ++ "\": " ++ pretty level value) :: prettyFields level rest

end

mutual

/-- The document without blanks. -/
def compact : Document → String
  | count n => toString n
  | truth b => toString b
  | members fields => opening ++ String.intercalate "," (compactFields fields) ++ closing

/-- Each member with its name, without blanks. -/
def compactFields : List (String × Document) → List String
  | [] => []
  | (name, value) :: rest => ("\"" ++ name ++ "\":" ++ compact value) :: compactFields rest

end

end Document

end SnapshotArchive.Text
