import Whittle.Number.Decimal
import Whittle.Syntax.Names
import Whittle.Text.Quoted

/-!
# Printing

A tree as text.  Parentheses follow from precedence alone, so a tree that was never parsed needs no
grouping of its own.  Every statement takes lines of its own; what stands inside braces is indented
by two blanks.
-/

namespace Whittle.Syntax

/-! ## Binding power -/

namespace Power

/-- Expressions between commas. -/
def sequence : Nat := 1
/-- Assignments, arrows and conditionals. -/
def assignment : Nat := 2
/-- The test of a conditional. -/
def test : Nat := 3
/-- Operators before an operand. -/
def unary : Nat := 15
/-- Operators after an operand. -/
def afterOperand : Nat := 16
/-- Calls and members. -/
def call : Nat := 17
/-- Everything that needs no grouping. -/
def primary : Nat := 18

end Power

/-- The binding power of an expression. -/
def Expr.power : Expr → Nat
  | .literal _ (.number value) =>
    if value.isNegative && !value.isZero then Power.unary else Power.primary
  | .function _ f => if f.isArrow then Power.assignment else Power.primary
  | .unary .. => Power.unary
  | .update _ _ before _ => if before then Power.unary else Power.afterOperand
  | .binary _ op _ _ => op.precedence
  | .logical _ op _ _ => op.precedence
  | .assign .. => Power.assignment
  | .conditional .. => Power.assignment
  | .call .. | .construct .. | .member .. | .index .. => Power.call
  | .sequence .. => Power.sequence
  | .name .. | .literal .. | .array .. | .object .. | .this .. => Power.primary

/-- Text in parentheses. -/
def inParens (text : String) : String := "(" ++ text ++ ")"

/-- The text of an expression where at least the given power is needed. -/
def Expr.group (e : Expr) (least : Nat) (text : String) : String :=
  if e.power < least then inParens text else text

/-- Whether an operand of a logical operator must be grouped whatever its power: `??` does not mix
with the other two. -/
def Expr.mixes (op : LogicalOp) : Expr → Bool
  | .logical _ inner _ _ => (op == .nullish) != (inner == .nullish)
  | _ => false

/-- An operand of a logical operator. -/
def Expr.groupOperand (e : Expr) (op : LogicalOp) (least : Nat) (text : String) : String :=
  if e.mixes op then inParens text else e.group least text

/-- Whether an expression is a call. -/
def Expr.isCall : Expr → Bool
  | .call .. => true
  | _ => false

/-- Whether an expression is a numeric literal, after which a point would belong to the number. -/
def Expr.isNumber : Expr → Bool
  | .literal _ (.number _) => true
  | _ => false

/-- Whether an expression is a function with its keyword. -/
def Expr.isKeywordFunction : Expr → Bool
  | .function _ f => !f.isArrow
  | _ => false

/-- Whether a statement is a block. -/
def Stmt.isBlock : Stmt → Bool
  | .block .. => true
  | _ => false

/-- Whether a statement is a conditional. -/
def Stmt.isIf : Stmt → Bool
  | .ifElse .. => true
  | _ => false

/-! ## Pieces -/

/-- Items between commas. -/
def commas (items : List String) : String := String.intercalate ", " items

/-- Items between braces. -/
def braced (items : List String) : String :=
  if items.isEmpty then "\x7b\x7d" else "\x7b " ++ commas items ++ " \x7d"

/-- The blanks before a line. -/
def pad (indent : Nat) : String := String.ofList (List.replicate (2 * indent) ' ')

/-- Lines between braces; the closing brace stands at the given indent. -/
def blockText (indent : Nat) (lines : List String) : String :=
  if lines.isEmpty then "\x7b\x7d"
  else "\x7b\n" ++ String.join (lines.map fun l => pad (indent + 1) ++ l ++ "\n") ++ pad indent ++
    "\x7d"

/-- The text of a literal. -/
def Literal.text : Literal → String
  | .number value => value.programText
  | .string value => Text.quote value
  | .boolean value => if value then "true" else "false"
  | .null => "null"

/-- An operator before the text of its operand; two signs are kept apart. -/
def UnaryOp.before (op : UnaryOp) (argument : String) : String :=
  let isSign := op == .minus || op == .plus
  if op.isWord || (isSign && argument.startsWith op.text) then op.text ++ " " ++ argument
  else op.text ++ argument

/-- The least power of the left operand of a binary operator.  The base of a power may not start
with an operator. -/
def BinaryOp.leftPower (op : BinaryOp) : Nat :=
  if op.isRightAssociative then max (op.precedence + 1) Power.afterOperand else op.precedence

/-- The least power of the right operand of a binary operator. -/
def BinaryOp.rightPower (op : BinaryOp) : Nat :=
  if op.isRightAssociative then op.precedence else op.precedence + 1

/-- The name that a pattern binds before any default. -/
def Pattern.lead? : Pattern → Option String
  | .name _ ident => some ident.name
  | .withDefault _ (.name _ ident) _ => some ident.name
  | _ => none

/-- Whether a property of an object pattern may be written in short form. -/
def PropertyKey.leads (key : PropertyKey) (value : Pattern) : Bool :=
  match key with
  | .name text => value.lead? == some text
  | _ => false

/-- An import. -/
def importText (specifiers : List ImportSpecifier) (source : String) : String :=
  let single (s : ImportSpecifier) : Option String :=
    match s.kind with
    | .default => some s.bound.name
    | .whole => some ("* as " ++ s.bound.name)
    | .named _ => none
  let named (s : ImportSpecifier) : Option String :=
    match s.kind with
    | .named imported =>
      some (if imported == s.bound.name then imported else imported ++ " as " ++ s.bound.name)
    | _ => none
  let names := specifiers.filterMap named
  let parts := specifiers.filterMap single ++ (if names.isEmpty then [] else [braced names])
  if specifiers.isEmpty then "import " ++ Text.quote source ++ ";"
  else "import " ++ commas parts ++ " from " ++ Text.quote source ++ ";"

/-- An export of names. -/
def exportText (specifiers : List ExportSpecifier) (source : Option String) : String :=
  let one (s : ExportSpecifier) : String :=
    if s.bound.name == s.exported then s.exported else s.bound.name ++ " as " ++ s.exported
  let names := commas (specifiers.map one)
  let list := if names.isEmpty then "\x7b\x7d" else "\x7b " ++ names ++ " \x7d"
  match source with
  | some source => "export " ++ list ++ " from " ++ Text.quote source ++ ";"
  | none => "export " ++ list ++ ";"

/-! ## Trees -/

mutual

/-- The text of an expression, without grouping. -/
def Expr.write (indent : Nat) : Expr → String
  | .name _ ident => ident.name
  | .literal _ value => value.text
  | .array _ elements => "[" ++ commas (Element.writeAll indent elements) ++ "]"
  | .object _ properties => braced (Property.writeAll indent properties)
  | .function _ f => f.write indent
  | .unary _ op argument => op.before (argument.group Power.unary (argument.write indent))
  | .update _ op true argument =>
    op.text ++ argument.group Power.unary (argument.write indent)
  | .update _ op false argument =>
    argument.group (Power.afterOperand + 1) (argument.write indent) ++ op.text
  | .binary _ op left right =>
    left.group op.leftPower (left.write indent) ++ " " ++ op.text ++ " " ++
      right.group op.rightPower (right.write indent)
  | .logical _ op left right =>
    left.groupOperand op op.precedence (left.write indent) ++ " " ++ op.text ++ " " ++
      right.groupOperand op (op.precedence + 1) (right.write indent)
  | .assign _ op target value =>
    target.write indent ++ " " ++ op.text ++ " " ++
      value.group Power.assignment (value.write indent)
  | .conditional _ test consequent alternate =>
    test.group Power.test (test.write indent) ++ " ? " ++
      consequent.group Power.assignment (consequent.write indent) ++ " : " ++
      alternate.group Power.assignment (alternate.write indent)
  | .call _ callee arguments =>
    callee.group Power.call (callee.write indent) ++
      inParens (commas (Element.writeAll indent arguments))
  | .construct _ callee arguments =>
    let text := callee.write indent
    "new " ++ (if callee.isCall then inParens text else callee.group Power.call text) ++
      inParens (commas (Element.writeAll indent arguments))
  | .member _ object property =>
    let text := object.write indent
    (if object.isNumber then inParens text else object.group Power.call text) ++ "." ++ property
  | .index _ object property =>
    let text := object.write indent
    (if object.isNumber then inParens text else object.group Power.call text) ++
      "[" ++ property.write indent ++ "]"
  | .sequence _ expressions => commas (Expr.writeAll indent expressions)
  | .this _ => "this"

/-- The texts of expressions between commas. -/
def Expr.writeAll (indent : Nat) : List Expr → List String
  | [] => []
  | e :: es => e.group Power.assignment (e.write indent) :: Expr.writeAll indent es

/-- The texts of elements. -/
def Element.writeAll (indent : Nat) : List Element → List String
  | [] => []
  | .one e :: es => e.group Power.assignment (e.write indent) :: Element.writeAll indent es
  | .spread e :: es =>
    ("..." ++ e.group Power.assignment (e.write indent)) :: Element.writeAll indent es

/-- The text of a key. -/
def PropertyKey.write (indent : Nat) : PropertyKey → String
  | .name text => text
  | .string text => Text.quote text
  | .number value => value.programText
  | .computed e => "[" ++ e.group Power.assignment (e.write indent) ++ "]"

/-- The texts of properties. -/
def Property.writeAll (indent : Nat) : List Property → List String
  | [] => []
  | .keyValue key value shorthand :: ps =>
    (if shorthand && key.isNamed value then value.write indent
     else key.write indent ++ ": " ++ value.group Power.assignment (value.write indent)) ::
      Property.writeAll indent ps
  | .method key f :: ps => f.writeMethod indent (key.write indent) :: Property.writeAll indent ps
  | .spread e :: ps =>
    ("..." ++ e.group Power.assignment (e.write indent)) :: Property.writeAll indent ps

/-- The text of a pattern. -/
def Pattern.write (indent : Nat) : Pattern → String
  | .name _ ident => ident.name
  | .array _ elements =>
    let trailing := match elements.getLast? with
      | some none => ","
      | _ => ""
    "[" ++ commas (Pattern.writeHoles indent elements) ++ trailing ++ "]"
  | .object _ properties => braced (PatternProperty.writeAll indent properties)
  | .withDefault _ target value =>
    target.write indent ++ " = " ++ value.group Power.assignment (value.write indent)
  | .rest _ argument => "..." ++ argument.write indent
  | .expression _ e => e.group Power.call (e.write indent)

/-- The texts of patterns. -/
def Pattern.writeAll (indent : Nat) : List Pattern → List String
  | [] => []
  | p :: ps => p.write indent :: Pattern.writeAll indent ps

/-- The texts of the elements of an array pattern; a hole has none. -/
def Pattern.writeHoles (indent : Nat) : List (Option Pattern) → List String
  | [] => []
  | none :: ps => "" :: Pattern.writeHoles indent ps
  | some p :: ps => p.write indent :: Pattern.writeHoles indent ps

/-- The texts of the properties of an object pattern. -/
def PatternProperty.writeAll (indent : Nat) : List PatternProperty → List String
  | [] => []
  | .keyValue key value :: ps =>
    (if key.leads value then value.write indent
     else key.write indent ++ ": " ++ value.write indent) :: PatternProperty.writeAll indent ps
  | .rest argument :: ps => ("..." ++ argument.write indent) :: PatternProperty.writeAll indent ps

/-- The text of a function body.  An arrow may have an expression as its body; a leading brace would
be read as a block. -/
def Body.write (indent : Nat) (isArrow : Bool) : Body → String
  | .block statements => blockText indent (Stmt.writeAll (indent + 1) statements)
  | .expression e =>
    if isArrow then
      let text := e.group Power.assignment (e.write indent)
      if text.startsWith "\x7b" then inParens text else text
    else "\x7b return " ++ e.write indent ++ "; \x7d"

/-- The text of a function. -/
def Func.write (indent : Nat) : Func → String
  | .mk _ name params body isArrow =>
    let list := inParens (commas (Pattern.writeAll indent params))
    if isArrow then list ++ " => " ++ body.write indent true
    else
      let title := match name with
        | some ident => " " ++ ident.name
        | none => ""
      "function" ++ title ++ list ++ " " ++ body.write indent false

/-- The text of a method with the given key. -/
def Func.writeMethod (indent : Nat) (key : String) : Func → String
  | .mk _ _ params body _ =>
    key ++ inParens (commas (Pattern.writeAll indent params)) ++ " " ++ body.write indent false

/-- The texts of declarators. -/
def Declarator.writeAll (indent : Nat) : List Declarator → List String
  | [] => []
  | .mk _ target none :: ds => target.write indent :: Declarator.writeAll indent ds
  | .mk _ target (some value) :: ds =>
    (target.write indent ++ " = " ++ value.group Power.assignment (value.write indent)) ::
      Declarator.writeAll indent ds

/-- The text of a loop head. -/
def ForHead.write (indent : Nat) : ForHead → String
  | .declaration kind declarators =>
    kind.text ++ " " ++ commas (Declarator.writeAll indent declarators)
  | .expression e => e.write indent

/-- The text of a loop head that may be missing. -/
def ForHead.writeOpt (indent : Nat) : Option ForHead → String
  | none => ""
  | some head => head.write indent

/-- The text of an expression that may be missing, with a blank in front. -/
def Expr.writeOpt (indent : Nat) : Option Expr → String
  | none => ""
  | some e => " " ++ e.write indent

/-- The text after `extends`, if there is any. -/
def Class.writeParent (indent : Nat) : Option Expr → String
  | none => ""
  | some e => " extends " ++ e.group Power.call (e.write indent)

/-- The texts of methods. -/
def Method.writeAll (indent : Nat) : List Method → List String
  | [] => []
  | .mk isStatic key f :: ms =>
    ((if isStatic then "static " else "") ++ f.writeMethod indent (key.write indent)) ::
      Method.writeAll indent ms

/-- The text of a class. -/
def Class.write (indent : Nat) : Class → String
  | .mk _ name parent methods =>
    let title := match name with
      | some ident => " " ++ ident.name
      | none => ""
    "class" ++ title ++ Class.writeParent indent parent ++ " " ++
      blockText indent (Method.writeAll (indent + 1) methods)

/-- The text of a statement, without the blanks before its first line. -/
def Stmt.write (indent : Nat) : Stmt → String
  | .declaration _ kind declarators =>
    kind.text ++ " " ++ commas (Declarator.writeAll indent declarators) ++ ";"
  | .function _ f => f.write indent
  | .classDeclaration _ cls => cls.write indent
  | .return _ value => "return" ++ Expr.writeOpt indent value ++ ";"
  | .ifElse _ test consequent alternate =>
    "if (" ++ test.write indent ++ ")" ++
      (if consequent.isBlock then " " ++ consequent.write indent
       else "\n" ++ pad (indent + 1) ++ consequent.write (indent + 1)) ++
      Stmt.writeElse indent alternate
  | .while _ test body =>
    "while (" ++ test.write indent ++ ")" ++
      (if body.isBlock then " " ++ body.write indent
       else "\n" ++ pad (indent + 1) ++ body.write (indent + 1))
  | .doWhile _ body test =>
    "do" ++
      (if body.isBlock then " " ++ body.write indent
       else "\n" ++ pad (indent + 1) ++ body.write (indent + 1)) ++
      " while (" ++ test.write indent ++ ");"
  | .for _ head test update body =>
    "for (" ++ ForHead.writeOpt indent head ++ ";" ++ Expr.writeOpt indent test ++ ";" ++
      Expr.writeOpt indent update ++ ")" ++
      (if body.isBlock then " " ++ body.write indent
       else "\n" ++ pad (indent + 1) ++ body.write (indent + 1))
  | .forEach _ head isOf subject body =>
    "for (" ++ head.write indent ++ (if isOf then " of " else " in ") ++
      subject.group Power.assignment (subject.write indent) ++ ")" ++
      (if body.isBlock then " " ++ body.write indent
       else "\n" ++ pad (indent + 1) ++ body.write (indent + 1))
  | .block _ statements => blockText indent (Stmt.writeAll (indent + 1) statements)
  | .break _ label => "break" ++ (label.map (" " ++ ·.name)).getD "" ++ ";"
  | .continue _ label => "continue" ++ (label.map (" " ++ ·.name)).getD "" ++ ";"
  | .throw _ e => "throw " ++ e.write indent ++ ";"
  | .expression _ e =>
    let text := e.write indent
    -- such a text would be read as a block or a declaration
    if text.startsWith "\x7b" || text.startsWith "function" || text.startsWith "class" then
      inParens text ++ ";"
    else text ++ ";"
  | .importFrom _ specifiers source => importText specifiers source
  | .exportNames _ specifiers source => exportText specifiers source
  | .exportDeclaration _ inner => "export " ++ inner.write indent
  | .exportDefault _ e =>
    if e.isKeywordFunction then "export default " ++ e.write indent
    else "export default " ++ e.group Power.assignment (e.write indent) ++ ";"
  | .empty _ => ";"

/-- The text of an alternative, if there is one. -/
def Stmt.writeElse (indent : Nat) : Option Stmt → String
  | none => ""
  | some s =>
    " else" ++
      (if s.isBlock || s.isIf then " " ++ s.write indent
       else "\n" ++ pad (indent + 1) ++ s.write (indent + 1))

/-- The texts of statements. -/
def Stmt.writeAll (indent : Nat) : List Stmt → List String
  | [] => []
  | s :: ss => s.write indent :: Stmt.writeAll indent ss

end

/-- The text of statements at the outermost level. -/
def printAll (statements : List Stmt) : String :=
  String.join ((Stmt.writeAll 0 statements).map (· ++ "\n"))

/-- The text of a module. -/
def Module.print (m : Module) : String := printAll m.body

/-- The text of an expression. -/
def Expr.print (e : Expr) : String := e.write 0

end Whittle.Syntax
