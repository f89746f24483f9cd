import Whittle.Emit.Module
import Whittle.Ir.Dump
import Whittle.Lowering.Build
import Whittle.Optimize.Pipeline
import Whittle.Project.Load
import Whittle.Ssa.Copies
import Whittle.Syntax.Print

/-!
# Compiling projects

The modules of a project are compiled one after the other, those that are imported first, so that what
they export is known by the time it is used.
-/

namespace Whittle

open Ir

/-- What is made of each module. -/
inductive Target where
  /-- A program. -/
  | code
  /-- The text of the intermediate code. -/
  | dump (ink : Ink)

/-- What was made of a module. -/
structure Compiled where
  /-- The path of the module. -/
  path : String
  /-- The text. -/
  code : String
deriving DecidableEq, Repr

/-- Lowers and optimizes one module. -/
def ProjectModule.lower (m : ProjectModule) (o : Options) (constants : Constants) :
    Outcome Workbench := do
  let (ir, env) ← m.tree.lower m.path {}
  let globals := ir.globals.map fun _ b => { b with resolved := m.imports.get? b.source }
  let (ir, env) ← Ir.Module.throughSsa { ir with globals } env
  let w : Workbench := { module := ir, env, constants }
  return if o.passes.isEmpty then w else w.optimize o

/-- The text of a lowered module. -/
def Ir.Workbench.render (w : Workbench) : Target → Outcome String
  | .code => return (← w.module.toSyntax w.env).print
  | .dump ink => return w.module.dump ink

namespace Project

/-- Compiles modules in order. -/
def compileAll (p : Project) (o : Options) (target : Target) :
    List String → Constants → Outcome (List Compiled)
  | [], _ => .ok []
  | path :: paths, constants =>
    match p.modules.get? path with
    | none => compileAll p o target paths constants
    | some m => do
      let w ← m.lower o constants
      let code ← w.render target
      return ⟨path, code⟩ :: (← compileAll p o target paths w.constants)

/-- Compiles all modules of a project, the entry last. -/
def compile (p : Project) (o : Options) (target : Target) : Outcome (List Compiled) :=
  compileAll p o target p.postOrder {}

end Project

end Whittle
