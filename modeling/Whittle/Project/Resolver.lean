import Whittle.Error
import Whittle.Project.Path
import Whittle.Table

/-!
# Finding modules

Which file an import means.  A specifier that starts with a dot or at the root is looked for next to
the importing file, with a few endings tried in order; any other specifier names a package and is left
alone.
-/

namespace Whittle

/-- Whether a specifier means a file of the project. -/
def isRelative (specifier : String) : Bool :=
  specifier.startsWith "./" || specifier.startsWith "../" || specifier.startsWith "/"

/-- The endings that are tried, in order. -/
def candidateEndings : List String := ["", ".ts", ".js", ".mjs", "/index.ts", "/index.js"]

/-- The paths that a specifier in an importing file may mean, in order. -/
def candidates (specifier importer : String) : List String :=
  let base := Path.join ((Path.parent? importer).getD "") specifier
  candidateEndings.map fun ending => Path.normalize (base ++ ending)

/-- A place where files are found. -/
structure Resolver where
  /-- The one path for the file at a path, if there is a file. -/
  find? : String → Option String
  /-- The contents of the file at a path. -/
  read : String → Outcome String
  /-- At least the number of files. -/
  fileCount : Nat

/-- The path of the file that a specifier in an importing file means. -/
def Resolver.resolve (r : Resolver) (specifier importer : String) : Outcome String :=
  match (candidates specifier importer).findSome? r.find? with
  | some path => .ok path
  | none => .error (.moduleNotFound specifier importer)

/-- Files held in memory, by normalized path. -/
abbrev Files := Table String String

namespace Files

/-- The files of a list; of two files with one path the later one stays. -/
def ofList (files : List (String × String)) : Files :=
  Table.ofList (files.map fun f => (Path.normalize f.1, f.2))

/-- Finds modules among files in memory. -/
def resolver (files : Files) : Resolver where
  find? path := if files.contains path then some path else none
  read path :=
    match files.get? (Path.normalize path) with
    | some contents => .ok contents
    | none => .error (.unreadable path "entity not found")
  fileCount := files.size

end Files

end Whittle
