/-!
# Errors

The causes for which compilation stops.  `Error.message` is the one place that words them, and
`Error.isUserError` tells a faulty program from a fault of the compiler.
-/

namespace Whittle

/-- Why a compilation stopped. -/
inductive Error where
  /-- The text is not a program. -/
  | malformed (message origin : String) (line column : Nat)
  /-- The program uses a construct outside the supported part of the language. -/
  | unsupported (construct : String)
  /-- A value was read that nothing defined. -/
  | placeNotFound (place : String)
  /-- A block was named that the function does not have. -/
  | blockNotFound (block : String)
  /-- A loop header is entered from two places inside its loop. -/
  | multipleBackEdges (block : String)
  /-- A variable is used before the statement that declares it. -/
  | useBeforeDeclaration (name : String)
  /-- Something that every earlier stage promises does not hold. -/
  | invariantViolation (message : String)
  /-- No file answers to an import. -/
  | moduleNotFound (specifier importer : String)
  /-- A file cannot be read. -/
  | unreadable (path reason : String)
deriving DecidableEq, Repr, Inhabited

namespace Error

/-- The text shown to the user. -/
def message : Error → String
  | .malformed message origin line column =>
    "syntax error: " ++ message ++ " (" ++ origin ++ ":" ++ toString line ++ ":" ++
      toString column ++ ")"
  | .unsupported construct => "unsupported " ++ construct
  | .placeNotFound place => "place not found: " ++ place
  | .blockNotFound block => "block not found: " ++ block
  | .multipleBackEdges block => "block " ++ block ++ " has multiple back edges"
  | .useBeforeDeclaration name => "variable `" ++ name ++ "` accessed before declaration"
  | .invariantViolation message => "internal compiler error: " ++ message
  | .moduleNotFound specifier importer =>
    "cannot resolve module `" ++ specifier ++ "` imported from " ++ importer
  | .unreadable path reason => "failed to read " ++ path ++ ": " ++ reason

/-- Whether the program, or the files around it, is at fault. -/
def isUserError : Error → Bool
  | .malformed .. | .unsupported _ | .useBeforeDeclaration _ | .moduleNotFound .. | .unreadable .. =>
    true
  | .placeNotFound _ | .blockNotFound _ | .multipleBackEdges _ | .invariantViolation _ => false

end Error

/-- A result, or why there is none. -/
abbrev Outcome (α : Type) := Except Error α

end Whittle
