import Whittle.Ir.Module

/-!
# Text of intermediate code

One line for each instruction, terminal and join, block by block.  A dump may be coloured for a
terminal; the colours never change the text between them.
-/

namespace Whittle.Ir

/-- Looks of a piece of a dump. -/
inductive Look where
  | red
  | yellow
  | blue
  | magenta
  | cyan
  | white
  | brightRed
  | brightGreen
  | dimmed
deriving DecidableEq, Repr

/-- The terminal's number for a look. -/
def Look.code : Look → String
  | .red => "31"
  | .yellow => "33"
  | .blue => "34"
  | .magenta => "35"
  | .cyan => "36"
  | .white => "37"
  | .brightRed => "91"
  | .brightGreen => "92"
  | .dimmed => "2"

/-- Whether and how a dump is coloured. -/
structure Ink where
  /-- Whether looks are shown. -/
  isColored : Bool
deriving DecidableEq, Repr

namespace Ink

/-- What ends every look. -/
def plain : String := "\x1b[0m"

/-- A piece of text with a look.  Where the text itself ends all looks, the look starts again. -/
def paint (ink : Ink) (look : Look) (text : String) : String :=
  if ink.isColored then
    let start := "\x1b[" ++ look.code ++ "m"
    start ++ String.intercalate (plain ++ start) (text.splitOn plain) ++ plain
  else text

/-- Items with commas between. -/
def commas (items : List String) : String := String.intercalate ", " items

/-- A place. -/
def place (ink : Ink) (p : Place) : String := ink.paint .yellow p.cell.text

/-- Places with commas between. -/
def places (ink : Ink) (ps : List Place) : String := commas (ps.map ink.place)

/-- The arrow of a write. -/
def arrow (ink : Ink) : String := ink.paint .white "<-"

/-- A name. -/
def name (ink : Ink) (text : String) : String := ink.paint .blue text

/-- A function. -/
def function (ink : Ink) (id : FuncId) : String := ink.paint .magenta id.text

/-- A block. -/
def block (ink : Ink) (id : BlockId) : String := ink.paint .blue id.text

/-- A key. -/
def key (ink : Ink) : Key → String
  | .name text => text
  | .string text => Text.shown text
  | .number value => value.text
  | .computed p => "[" ++ ink.place p ++ "]"

/-- A property of an object. -/
def property (ink : Ink) : Property → String
  | .keyValue k value _ => ink.key k ++ ": " ++ ink.place value
  | .method k function => ink.key k ++ ": " ++ function.text
  | .spread value => "..." ++ ink.place value

/-- A property of an object pattern. -/
def patternProperty (ink : Ink) : PatternProperty → String
  | .keyValue k value => ink.key k ++ ": " ++ ink.place value
  | .rest p => "..." ++ ink.place p

/-- What an import specifier takes. -/
def imported : Syntax.ImportKind → String
  | .default => "default"
  | .named text => text
  | .whole => "*"

/-- An operation: its word and its operands. -/
def op (ink : Ink) : Op → String
  | .loadLocal p => word "load_local" ++ ink.place p
  | .storeLocal target value kind =>
    word "store_local" ++ ink.paint .magenta kind.text ++ " " ++ ink.place target ++ " " ++
      ink.arrow ++ " " ++ ink.place value
  | .loadGlobal text => word "load_global" ++ ink.name text
  | .storeGlobal text value =>
    word "store_global" ++ ink.name text ++ " " ++ ink.arrow ++ " " ++ ink.place value
  | .propertyLoad base text => word "property_load" ++ ink.place base ++ "." ++ text
  | .propertyStore base text value =>
    word "property_store" ++ ink.place base ++ "." ++ text ++ " " ++ ink.arrow ++ " " ++
      ink.place value
  | .computedLoad base index =>
    word "computed_load" ++ ink.place base ++ "[" ++ ink.place index ++ "]"
  | .computedStore base index value =>
    word "computed_store" ++ ink.place base ++ "[" ++ ink.place index ++ "] " ++ ink.arrow ++ " " ++
      ink.place value
  | .copy target value =>
    word "copy" ++ ink.place target ++ " " ++ ink.arrow ++ " " ++ ink.place value
  | .literal value => word "literal" ++ ink.paint .magenta value.text
  | .binary o left right =>
    word "binary" ++ ink.place left ++ " " ++ o.text ++ " " ++ ink.place right
  | .unary o argument => word "unary" ++ o.text ++ ink.place argument
  | .logical o left right =>
    word "logical" ++ ink.place left ++ " " ++ o.text ++ " " ++ ink.place right
  | .conditional test consequent alternate =>
    word "conditional" ++ ink.place test ++ " ? " ++ ink.place consequent ++ " : " ++
      ink.place alternate
  | .call callee arguments =>
    word "call" ++ ink.place callee ++ "(" ++ ink.places arguments ++ ")"
  | .construct callee arguments =>
    word "new" ++ ink.place callee ++ "(" ++ ink.places arguments ++ ")"
  | .array elements => word "array" ++ "[" ++ ink.places elements ++ "]"
  | .object properties =>
    word "object" ++ "\x7b" ++ commas (properties.map ink.property) ++ "\x7d"
  | .functionExpression id => word "function" ++ ink.function id
  | .binding text => word "binding" ++ ink.name text
  | .arrayPattern elements =>
    word "array_pattern" ++ "[" ++
      commas (elements.map fun e => (e.map ink.place).getD "") ++ "]"
  | .objectPattern properties =>
    word "object_pattern" ++ "\x7b" ++ commas (properties.map ink.patternProperty) ++ "\x7d"
  | .defaultPattern target value =>
    word "assignment_pattern" ++ ink.place target ++ " = " ++ ink.place value
  | .spread argument => word "spread" ++ ink.place argument
  | .rest argument => word "rest" ++ ink.place argument
  | .destructure pattern value kind =>
    word "destructure" ++ ink.paint .magenta kind.text ++ " " ++ ink.place pattern ++ " " ++
      ink.arrow ++ " " ++ ink.place value
  | .functionDeclaration id => word "function_declaration" ++ ink.function id
  | .importDeclaration source specifiers =>
    word "import" ++ "\x7b" ++ ink.places specifiers ++ "\x7d from " ++ Text.shown source
  | .importSpecifier kind text =>
    word "import_specifier" ++ imported kind ++ " as " ++ ink.name text
  | .exportSpecifier p text => word "export_specifier" ++ ink.place p ++ " as " ++ ink.name text
  | .exportNames specifiers => word "export" ++ "\x7b" ++ ink.places specifiers ++ "\x7d"
  | .exportDefault value => word "export_default" ++ ink.place value
  | .expressionStatement expression => word "expression_statement" ++ ink.place expression
  | .unsupported source bindings =>
    ink.paint .red "unsupported" ++ " " ++ source.kindName ++ " [" ++
      commas (bindings.map fun b => b.1 ++ ": " ++ ink.place b.2) ++ "]"
where
  word (text : String) : String := ink.paint .cyan text ++ " "

/-- An instruction. -/
def instr (ink : Ink) (i : Instr) : String :=
  ink.paint .dimmed i.id.text ++ " " ++ ink.place i.place ++ " " ++ ink.paint .white "=" ++ " " ++
    ink.op i.op

/-- A terminal. -/
def terminal (ink : Ink) : Terminal → String
  | .jump target => ink.paint .cyan "jmp" ++ " " ++ ink.block target
  | .branch test consequent alternate fallthrough =>
    ink.paint .cyan "br" ++ " " ++ ink.place test ++ " " ++ ink.block consequent ++ " " ++
      ink.block alternate ++ " " ++ ink.paint .dimmed "fallthrough" ++ " " ++ ink.block fallthrough
  | .ret (some value) => ink.paint .cyan "ret" ++ " " ++ ink.place value
  | .ret none => ink.paint .cyan "ret"

/-- A join; its list of operands is opened and never closed. -/
def phi (ink : Ink) (p : Phi) : String :=
  ink.place p.place ++ " " ++ ink.paint .white "=" ++ " " ++ ink.paint .brightGreen "phi" ++
    ink.paint .white "(" ++
    commas (p.operands.entries.map fun o => ink.block o.1 ++ " -> " ++ ink.place o.2)

/-- The lines of a block. -/
def blockLines (ink : Ink) (f : Function) (id : BlockId) (b : Block) : List String :=
  [ink.paint .brightRed (id.text ++ ":") ++ " " ++
      ink.paint .dimmed ("; preds: " ++ commas ((f.flow.predecessorsOf id).map (·.text)))] ++
    (f.phis.filter (·.block == id)).map (fun p => "    " ++ ink.phi p) ++
    b.instructions.map (fun i => "    " ++ ink.instr i) ++
    ["    " ++
      match b.terminal with
      | some t => ink.terminal t
      | none => ink.paint .red "<unterminated>"]

/-- Lines, each ended. -/
def ended (lines : List String) : String := String.join (lines.map (· ++ "\n"))

end Ink

/-- The text of a function. -/
def Function.dump (ink : Ink) (f : Function) : String :=
  Ink.ended
    ([ink.paint .magenta f.id.text ++ " " ++ ink.name (f.name.getD f.kind.text) ++
        ink.paint .white "(" ++ ink.places f.params ++ ink.paint .white ") \x7b"] ++
      f.header.map (fun i => "  " ++ ink.paint .dimmed "header" ++ " " ++ ink.instr i) ++
      f.blocks.entries.flatMap (fun e => ink.blockLines f e.1 e.2) ++
      [ink.paint .white "\x7d"])

/-- The text of a module. -/
def Module.dump (ink : Ink) (m : Module) : String :=
  ink.paint .magenta "module" ++ " " ++ ink.name m.path ++ "\n" ++
    String.join (m.functions.values.map (Function.dump ink))

end Whittle.Ir
