import Whittle.Project.Resolver
import Whittle.Syntax.Parse

/-!
# Projects

A project is an entry module with all modules that it reaches through the imports of files.
`Project.load` parses them; `Project.postOrder` lists each module behind those it imports, cycles cut
where they close.
-/

namespace Whittle

/-- A parsed module of a project. -/
structure ProjectModule where
  /-- Its path. -/
  path : String
  /-- Its source. -/
  source : Source
  /-- Its tree. -/
  tree : Syntax.Module
  /-- The paths of the files that it imports, by specifier. -/
  imports : Table String String

/-- A program of several modules. -/
structure Project where
  /-- The path of the module that is run. -/
  entry : String
  /-- All modules by path. -/
  modules : Table String ProjectModule

namespace Project

/-- The specifiers of a module's imports and exports of other modules, in order. -/
def specifiers (tree : Syntax.Module) : List String :=
  tree.body.filterMap fun
    | .importFrom _ _ source => some source
    | .exportNames _ _ source => source
    | _ => none

/-- Resolves specifiers in order; answers the table with the new paths, the last one first. -/
def resolveAll (r : Resolver) (importer : String) :
    List String → Table String String → List String → Outcome (Table String String × List String)
  | [], imports, found => .ok (imports, found)
  | specifier :: more, imports, found =>
    if !isRelative specifier || imports.contains specifier then
      resolveAll r importer more imports found
    else do
      let path ← r.resolve specifier importer
      resolveAll r importer more (imports.insert specifier path) (path :: found)

/-- Reads, parses and resolves one module; answers it with the paths it imports, the last one
first. -/
def loadOne (r : Resolver) (path : String) : Outcome (ProjectModule × List String) := do
  let source : Source := ⟨path, ← r.read path⟩
  let tree ← Syntax.parse source
  let (imports, found) ← resolveAll r path (specifiers tree) ∅ []
  return (⟨path, source, tree, imports⟩, found)

/-- Loads the pending modules and what they reach.  Each round loads another file, so no more rounds
are needed than there are files. -/
def loadAll (r : Resolver) : (fuel : Nat) → (pending : List String) →
    Table String ProjectModule → Outcome (Table String ProjectModule)
  | 0, _, modules => .ok modules
  | fuel + 1, pending, modules =>
    match pending.dropWhile modules.contains with
    | [] => .ok modules
    | path :: pending => do
      let (m, found) ← loadOne r path
      loadAll r fuel (found ++ pending) (modules.insert path m)

/-- Loads the project of an entry file. -/
def load (r : Resolver) (entry : String) : Outcome Project := do
  let name := (Path.fileName? entry).getD ""
  let path := match r.resolve ("./" ++ name) entry with
    | .ok path => path
    | .error _ => Path.normalize entry
  return ⟨path, ← loadAll r (r.fileCount + 1) [path] ∅⟩

/-- The paths of the files that the module at a path imports, in the order of their specifiers. -/
def importsOf (p : Project) (path : String) : List String :=
  ((p.modules.get? path).map (·.imports.values)).getD []

/-- Goes on with a walk in depth.  The stack holds the modules still to go to, the next one first, and, marked,
those to finish when everything above them is.  The list holds the finished modules, the last one first. -/
def visit (p : Project) : (fuel : Nat) → (stack : List (String × Bool)) →
    KeySet String × List String → KeySet String × List String
  | 0, _, acc => acc
  | _, [], acc => acc
  | fuel + 1, (path, true) :: stack, (seen, done) => p.visit fuel stack (seen, path :: done)
  | fuel + 1, (path, false) :: stack, (seen, done) =>
    if seen.contains path then p.visit fuel stack (seen, done)
    else
      let seen := KeySet.add seen path
      let targets := (p.importsOf path).filter fun target => !seen.contains target
      p.visit fuel (targets.map (·, false) ++ (path, true) :: stack) (seen, done)

/-- The modules, each behind those it imports; the entry comes last.  A round takes a module off the stack, and
apart from the entry each comes there for an import; it is taken off twice at most. -/
def postOrder (p : Project) : List String :=
  (p.visit (2 * p.modules.total (·.imports.size) + 2) [(p.entry, false)] (∅, [])).2.reverse

end Project

end Whittle
