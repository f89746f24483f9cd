import Whittle.Command.Arguments

/-!
# Actions

What carrying out a command does to the world: texts that are printed and files that are written.
Nothing happens unless every module has compiled.
-/

namespace Whittle

/-- Something that the user can see. -/
inductive Action where
  | print (text : String)
  | write (path contents : String)
deriving DecidableEq, Repr

namespace Command

/-- Where a module lands inside the output directory: at its place below the entry's directory, or
under its bare name if it is not below. -/
def outputName (root path : String) : String :=
  Path.toScript ((Path.below? root path).getD ((Path.fileName? path).getD ""))

/-- How a module is printed among others. -/
def titled (m : Compiled) : String := "// " ++ m.path ++ "\n" ++ m.code

/-- What is done with the compiled modules of a project. -/
def actions (c : Command) (p : Project) (modules : List Compiled) : List Action :=
  match c.output, modules with
  | none, [m] => [.print m.code]
  | none, modules => modules.map fun m => .print (titled m)
  | some path, [m] => [.write path m.code]
  | some directory, modules =>
    let root := (Path.parent? p.entry).getD ""
    modules.map fun m => .write (Path.join directory (outputName root m.path)) m.code

/-- Loads and compiles what the command names; answers what is to be done. -/
def plan (c : Command) (r : Resolver) : Outcome (List Action) := do
  let p ← Project.load r c.entry
  return c.actions p (← p.compile c.options c.target)

end Command

/-- What the user is told about an error. -/
def Error.notice (e : Error) : String :=
  "error: " ++ e.message ++ "\n" ++
    if e.isUserError then "" else "note: this is a bug in jsoptc\n"

end Whittle
