import Whittle.Command.Actions

/-!
# The program

Reads the files that a command needs, lets `Command.plan` decide what is to be done, and does it.
-/

namespace Whittle

/-- What has been read from the disk. -/
structure Snapshot where
  /-- Absolute paths by the paths that led to them. -/
  found : Table String String := ∅
  /-- What reading gave, by absolute path. -/
  contents : Table String (Outcome String) := ∅

namespace Snapshot

/-- Finds modules among what has been read. -/
def resolver (s : Snapshot) : Resolver where
  find? := s.found.get?
  read path := (s.contents.get? path).getD (.error (.unreadable path "not found"))
  fileCount := s.found.size

/-- The paths that the imports of a file may mean. -/
def candidatesIn (path text : String) : List String :=
  match Syntax.parse ⟨path, text⟩ with
  | .ok tree => (Project.specifiers tree).flatMap fun specifier =>
    if isRelative specifier then candidates specifier path else []
  | .error _ => []

end Snapshot

/-- What the system says about a failure. -/
def failureText : IO.Error → String
  | .alreadyExists _ code text | .noFileOrDirectory _ code text | .inappropriateType _ code text
  | .permissionDenied _ code text | .invalidArgument _ code text | .resourceExhausted _ code text
  | .noSuchThing _ code text | .otherError code text =>
    text ++ " (os error " ++ toString code ++ ")"
  | e => e.toString

/-- The absolute path of the file that a path leads to. -/
def fileAt? (path : String) : IO (Option String) := do
  try
    let location ← IO.FS.realPath path
    return if ← location.isDir then none else some location.toString
  catch _ => return none

/-- Reads the files at the given paths and all that they import. -/
partial def readAll (s : Snapshot) : List String → IO Snapshot
  | [] => return s
  | path :: pending => do
    if s.found.contains path then readAll s pending
    else
      match ← fileAt? path with
      | none => readAll s pending
      | some location =>
        let s := { s with found := s.found.insert path location }
        if s.contents.contains location then readAll s pending
        else
          let result : Outcome String ←
            try pure (.ok (← IO.FS.readFile location))
            catch e => pure (.error (.unreadable location (failureText e)))
          let s := { s with contents := s.contents.insert location result }
          let imports := match result with
            | .ok text => Snapshot.candidatesIn location text
            | .error _ => []
          readAll s (imports ++ pending)

/-- Whether a path leads to a directory. -/
def isDirectoryAt (path : String) : IO Bool := do
  try return ← (← IO.FS.realPath path).isDir
  catch _ => return false

/-- Makes a directory unless it exists. -/
def makeDirectory (path : String) : IO Unit := do
  try IO.FS.createDir path
  catch e => if !(← isDirectoryAt path) then throw e

/-- Makes the first of the given directories unless it exists; each of the others is the one above the
one before it, and is made if it is missing. -/
def makeDirectories : List String → IO Unit
  | [] => pure ()
  | path :: above => do
    try makeDirectory path
    catch
      | .noFileOrDirectory .. =>
        makeDirectories above
        makeDirectory path
      | e => throw e

/-- Does what a plan says. -/
def Action.perform : Action → IO (Option Error)
  | .print text => do
    IO.print text
    return none
  | .write path contents => do
    try
      makeDirectories ((Path.parent? path).toList.flatMap Path.ancestors)
      IO.FS.writeFile path contents
      return none
    catch e => return some (.unreadable path (failureText e))

/-- Does what a plan says until something fails. -/
def performActions : List Action → IO (Option Error)
  | [] => return none
  | action :: actions => do
    match ← action.perform with
    | none => performActions actions
    | some e => return some e

/-- Tells the user about an error. -/
def fail (e : Error) : IO UInt32 := do
  IO.eprint e.notice
  return 1

end Whittle

open Whittle

/-- Compiles a program as the command line asks. -/
def main (words : List String) : IO UInt32 := do
  let some c := Command.ofWords? words
    | do
      IO.eprintln "error: the arguments make no sense"
      return 2
  if (← fileAt? c.entry).isNone then
    IO.eprintln ("error: Entry module '" ++ c.entry ++ "' is not a file!")
    return 2
  let name := (Path.fileName? c.entry).getD ""
  let snapshot ← readAll {} (candidates ("./" ++ name) c.entry)
  match c.plan snapshot.resolver with
  | .error e => fail e
  | .ok actions =>
    match ← performActions actions with
    | none => return 0
    | some e => fail e
