import Mathlib.Data.List.TakeDrop
import Mathlib.Tactic.Common
import Whittle.Optimize.Inline

/-!
# Executing straight-line code

Every cell holds a value of its own.  What operations do with values is up to a `Machine`: it gives
their results and changes the world, which is everything that code outside can see.  Loads, stores and
destructuring move values between cells; calls run a function in cells of its own.
-/

namespace Whittle.Ir

/-! ## Operations apart from their places -/

/-- The pattern inside a property. -/
def PatternProperty.target : PatternProperty → Place
  | .keyValue _ value => value
  | .rest place => place

/-- The values that a property of a pattern reads. -/
def PatternProperty.operands : PatternProperty → List Place
  | .keyValue key _ => key.reads
  | .rest _ => []

/-- How an operation treats the cells that it reads and defines. -/
inductive Manner where
  /-- Hands on what a cell holds. -/
  | move (value : Place)
  | literal (value : Value)
  | array
  /-- Names a variable inside a pattern. -/
  | name
  /-- Builds a pattern from smaller ones. -/
  | compose
  /-- Binds the names of a pattern. -/
  | destructure (pattern value : Place)
  | compute

/-- Replaces the places. -/
def Manner.map (f : Place → Place) : Manner → Manner
  | .move value => .move (f value)
  | .destructure pattern value => .destructure (f pattern) (f value)
  | manner => manner

namespace Op

/-- How the operation treats cells. -/
def manner : Op → Manner
  | .loadLocal place => .move place
  | .storeLocal _ value _ => .move value
  | .copy _ value => .move value
  | .literal value => .literal value
  | .array _ => .array
  | .binding _ => .name
  | .arrayPattern _ | .objectPattern _ | .defaultPattern .. | .rest _ => .compose
  | .destructure pattern value _ => .destructure pattern value
  | _ => .compute

/-- The patterns that an operation puts together or takes apart. -/
def targets : Op → List Place
  | .arrayPattern elements => elements.flatMap Option.toList
  | .objectPattern properties => properties.map (·.target)
  | .defaultPattern target _ => [target]
  | .rest argument => [argument]
  | .destructure pattern _ _ => [pattern]
  | _ => []

/-- The values that an operation reads. -/
def operands : Op → List Place
  | .arrayPattern _ | .rest _ => []
  | .objectPattern properties => properties.flatMap (·.operands)
  | .defaultPattern _ value => [value]
  | .destructure _ value _ => [value]
  | op => op.reads

/-- Replaces all places, that of the variable written included. -/
def mapPlaces (g : Place → Place) (op : Op) : Op := Copying.onTarget g (op.mapReads g)

/-- The operation without its places. -/
def skeleton (op : Op) : Op := op.mapPlaces fun _ => default

end Op

/-! ## Machines -/

/-- What operations do, apart from moving values between cells.  Values are also what instructions
hand to each other on the way: spread arguments, patterns and specifiers.  Some cells are shared: code
outside may read and write them at any time, so their values belong to the world.  Of its other places
an operation sees only what they hold. -/
structure Machine (V W : Type) where
  literal : Value → V
  /-- The result of an operation on the values of its operands and, of those that are shared, on the
  cells. -/
  perform : Op → List (V × Option Cell) → W → V × W
  /-- The pattern that an operation builds from patterns and values. -/
  pattern : Op → List V → List V → V
  /-- The elements of an array or the arguments of a call, spreads expanded. -/
  expand : List V → W → List V × W
  /-- An array of the given elements; making it is no effect. -/
  array : List V → W → V
  /-- What the names of a pattern take from a value, in order. -/
  bind : V → V → W → List V × W
  isShared : Cell → Bool
  load : Cell → W → V
  store : Cell → V → W → W

/-- A pattern that waits to be bound, and the variables that it binds. -/
structure Binder (V : Type) where
  shape : V
  names : List Cell

/-- Replaces the variables. -/
def Binder.map {V : Type} (ρ : Cell → Cell) (b : Binder V) : Binder V := ⟨b.shape, b.names.map ρ⟩

/-- What there is at one moment of an execution. -/
structure Moment (V W : Type) where
  /-- What the cells hold that are not shared. -/
  values : Cell → V
  /-- The patterns that stand in cells. -/
  binders : Cell → Binder V
  world : W

variable {V W : Type}

/-- The moment with a pattern in a cell. -/
def Moment.withBinder (σ : Moment V W) (c : Cell) (b : Binder V) : Moment V W :=
  { σ with binders := fun c' => if c' = c then b else σ.binders c' }

namespace Machine

variable (M : Machine V W)

/-- The value of what has none. -/
def undefined : V := M.literal .undefined

/-- What a cell holds. -/
def read (σ : Moment V W) (c : Cell) : V := if M.isShared c then M.load c σ.world else σ.values c

/-- Writes a cell. -/
def set (σ : Moment V W) (c : Cell) (v : V) : Moment V W :=
  if M.isShared c then { σ with world := M.store c v σ.world }
  else { σ with values := fun c' => if c' = c then v else σ.values c' }

/-- Writes cells one after the other. -/
def setAll (σ : Moment V W) (pairs : List (Cell × V)) : Moment V W :=
  pairs.foldl (fun σ e => M.set σ e.1 e.2) σ

/-- Writes a value into everything that an instruction defines. -/
def write (σ : Moment V W) (i : Instr) (v : V) : Moment V W :=
  M.setAll σ (i.defined.map fun p => (p.cell, v))

/-- What an operation sees of a place. -/
def see (σ : Moment V W) (p : Place) : V × Option Cell :=
  (M.read σ p.cell, if M.isShared p.cell then some p.cell else none)

/-- The values that an instruction reads. -/
def operands (σ : Moment V W) (i : Instr) : List V := i.op.operands.map fun p => M.read σ p.cell

/-- The pattern that an instruction builds. -/
def binder (σ : Moment V W) (i : Instr) : Binder V where
  shape := M.pattern i.op.skeleton (i.op.targets.map fun p => (σ.binders p.cell).shape)
    (M.operands σ i)
  names := i.op.targets.flatMap fun p => (σ.binders p.cell).names

/-- Executes an instruction. -/
def step (σ : Moment V W) (i : Instr) : Moment V W :=
  match i.op.manner with
  | .move value => M.write σ i (M.read σ value.cell)
  | .literal value => M.write σ i (M.literal value)
  | .array =>
    let r := M.expand (M.operands σ i) σ.world
    M.write { σ with world := r.2 } i (M.array r.1 r.2)
  | .name => σ.withBinder i.place.cell ⟨M.pattern i.op.skeleton [] [], [i.place.cell]⟩
  | .compose => σ.withBinder i.place.cell (M.binder σ i)
  | .destructure pattern value =>
    let r := M.bind (σ.binders pattern.cell).shape (M.read σ value.cell) σ.world
    M.write (M.setAll { σ with world := r.2 } ((σ.binders pattern.cell).names.zip r.1)) i
      (M.read σ value.cell)
  | .compute =>
    let r := M.perform i.op.skeleton (i.op.operands.map (M.see σ)) σ.world
    M.write { σ with world := r.2 } i r.1

/-- Executes instructions in order. -/
def run (σ : Moment V W) (is : List Instr) : Moment V W := is.foldl M.step σ

/-! ## Calls -/

/-- No pattern. -/
def noBinder : Binder V := ⟨M.undefined, []⟩

/-- The moment at which a function starts: the cells of its own are undefined. -/
def enter (isOwn : Cell → Bool) (σ : Moment V W) : Moment V W where
  values c := if isOwn c then M.undefined else σ.values c
  binders c := if isOwn c then M.noBinder else σ.binders c
  world := σ.world

end Machine

/-- The moment after a function, given the one before: the function's own cells are gone. -/
def Moment.leave (isOwn : Cell → Bool) (before inside : Moment V W) : Moment V W where
  values c := if isOwn c then before.values c else inside.values c
  binders c := if isOwn c then before.binders c else inside.binders c
  world := inside.world

/-- The place that a straight body returns, if any. -/
def returned? (body : List Block) : Option Place :=
  match (body.getLast?).bind (·.terminal) with
  | some (.ret value) => value
  | _ => none

namespace Machine

variable (M : Machine V W)

/-- The moment at the end of a function with a straight body.  Parameters are bound by position; those
without an argument are undefined. -/
def inside (isOwn : Cell → Bool) (f : Function) (body : List Block) (arguments : List V)
    (σ : Moment V W) : Moment V W :=
  let ready := M.setAll (M.run (M.enter isOwn σ) f.header)
    ((f.params.map (·.cell)).zip (List.takeD f.params.length arguments M.undefined))
  M.run ready (body.flatMap (·.instructions))

/-- What a function with a straight body has returned in the end; undefined where it returns
nothing. -/
def result (body : List Block) (σ : Moment V W) : V :=
  (returned? body).elim M.undefined fun p => M.read σ p.cell

/-- Executes a call of a function with a straight body. -/
def call (isOwn : Cell → Bool) (f : Function) (body : List Block) (place : Place)
    (arguments : List Place) (σ : Moment V W) : Moment V W :=
  let r := M.expand (arguments.map fun p => M.read σ p.cell) σ.world
  let inside := M.inside isOwn f body r.1 { σ with world := r.2 }
  M.set (σ.leave isOwn inside) place.cell (M.result body inside)

/-- The pattern of plain names in an array. -/
def arrayOf (names : List String) : V :=
  M.pattern (.arrayPattern (names.map fun _ => some default))
    (names.map fun name => M.pattern (.binding name) [] []) []

/-- Destructuring an array into plain names binds by position and does nothing else. -/
def IsPositional : Prop :=
  ∀ (names : List String) (vs : List V) (w : W),
    M.bind (M.arrayOf names) (M.array vs w) w = (List.takeD names.length vs M.undefined, w)

end Machine

end Whittle.Ir
