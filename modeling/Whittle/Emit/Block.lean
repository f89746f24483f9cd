import Whittle.Emit.Instr

/-!
# Emission of blocks

The graph of blocks becomes nested statements again.  A block with a back edge heads a `while` loop;
a branch becomes an `if` with the block where its arms meet behind it.
-/

namespace Whittle.Emit

open Ir Syntax

/-- A block of statements. -/
def blockStmt (statements : List Stmt) : Stmt := .block Node.synthetic statements

/-- The statement that leaves a loop. -/
def breakStmt : Stmt := .break Node.synthetic none

/-- Runs a step in a statement list of its own and answers its result and the statements. -/
def inList {α : Type} (step : Step α) : Step (α × List Stmt) := do
  let around ← get
  let region := around.lastRegion + 1
  set { around with out := [], region := around.region ++ [region], lastRegion := region }
  let a ← step
  let statements := (← get).out.reverse
  modify fun st => { st with out := around.out, region := around.region }
  pure (a, statements)

/-- Whether a block heads or follows one of the loops around. -/
def bordersLoop (block : BlockId) : Step Bool := do
  return (← get).loops.any fun l => l.header == block || l.exit == block

/-- Goes on at a block: behind the innermost loop by leaving it, at a loop's border or at the end of
an arm by doing nothing, else by emitting the block. -/
def goTo (emitBlock : BlockId → Step Unit) (target : BlockId) : Step Unit := do
  let st ← get
  if (st.loops.head?.map (·.exit)) == some target then push breakStmt
  else if (← bordersLoop target) || st.reserved.contains target then pure ()
  else emitBlock target

/-- Emits a conditional and what comes behind it.  An empty first arm is left out by negating the
test. -/
def emitIf (emitBlock : BlockId → Step Unit) (test : Expr)
    (consequent alternate fallthrough : BlockId) : Step Unit := do
  let isOurs := !(← get).reserved.contains fallthrough
  modify fun st => { st with reserved := KeySet.add st.reserved fallthrough }
  let first ←
    if consequent == fallthrough then pure [] else (·.2) <$> inList (goTo emitBlock consequent)
  let second ←
    if alternate == fallthrough then pure none
    else (some ·.2) <$> inList (goTo emitBlock alternate)
  if isOurs then
    modify fun st => { st with reserved := st.reserved.erase fallthrough }
  match first, second with
  | [], some second => push (.ifElse Node.synthetic (negated test) (blockStmt second) none)
  | first, second =>
    push (.ifElse Node.synthetic test (blockStmt first) (second.map blockStmt))
  if isOurs && !(← bordersLoop fallthrough) then
    let f := (← read).function
    let isEmpty := (f.blocks.get? fallthrough).any (·.instructions.isEmpty)
    if !f.flow.isReachable fallthrough && isEmpty then
      modify fun st => { st with emitted := KeySet.add st.emitted fallthrough }
    else goTo emitBlock fallthrough

/-- Emits the body of a loop and answers its test.  Where the header has statements of its own, they
come first in the body, the loop tests nothing and the body leaves it. -/
def emitLoopBody (emitBlock : BlockId → Step Unit) (header : Block) (test : Place)
    (consequent : BlockId) : Step Expr := do
  emitInstrs header.instructions
  let t := (← take test).expr
  settleEverything
  if (← get).out.isEmpty then
    goTo emitBlock consequent
    pure t
  else
    push (.ifElse Node.synthetic (negated t) (blockStmt [breakStmt]) none)
    goTo emitBlock consequent
    pure (.literal Node.synthetic (.boolean true))

/-- Emits a loop and what comes behind it. -/
def emitLoop (emitBlock : BlockId → Step Unit) (id : BlockId) (header : Block) : Step Unit := do
  match header.terminal with
  | some (.branch test consequent alternate _) =>
    settleEverything
    modify fun st => { st with loops := ⟨id, alternate⟩ :: st.loops }
    let (t, body) ← inList (emitLoopBody emitBlock header test consequent)
    modify fun st => { st with loops := st.loops.tail }
    push (.while Node.synthetic t (blockStmt body))
    goTo emitBlock alternate
  | _ => throw (.unsupported "loop without a condition")

/-- Emits the end of a block and what comes behind it.  A return of nothing at the end of a function
is left out. -/
def emitTerminal (emitBlock : BlockId → Step Unit) (id : BlockId) : Option Terminal → Step Unit
  | none => broken ("block " ++ id.text ++ " has no terminal")
  | some (.jump target) => do
    settleEverything
    goTo emitBlock target
  | some (.branch test consequent alternate fallthrough) => do
    let t := (← take test).expr
    settleEverything
    emitIf emitBlock t consequent alternate fallthrough
  | some (.ret none) => do
    settleEverything
    let isLeftOut := (← get).region.isEmpty || (← read).function.kind == .module
    if !isLeftOut then push (.return Node.synthetic none)
  | some (.ret (some value)) => do
    let v := (← take value).expr
    settleEverything
    push (.return Node.synthetic (some v))

/-- Emits a block, unless it is emitted, and what comes behind it.  Each round emits another block,
so no more rounds are needed than there are blocks. -/
def emitBlock : (fuel : Nat) → BlockId → Step Unit
  | 0, id => broken ("block " ++ id.text ++ " is nested too deep")
  | fuel + 1, id => do
    let st ← get
    if !st.emitted.contains id then
      modify fun st =>
        { st with
          emitted := KeySet.add st.emitted id
          blockRegions := st.blockRegions.insert id st.region }
      let f := (← read).function
      match f.blocks.get? id with
      | none => throw (.blockNotFound id.text)
      | some block =>
        match ← f.flow.backEdge id with
        | some _ => emitLoop (emitBlock fuel) id block
        | none =>
          emitInstrs block.instructions
          emitTerminal (emitBlock fuel) id block.terminal

end Whittle.Emit
