import Whittle.Syntax.Parse.Types

/-!
# Patterns and parameters
-/

namespace Whittle.Syntax

namespace Parser

/-- The key of a property. -/
def propertyKey (r : Productions) : Parser PropertyKey := do
  match ← peek with
  | some token =>
    match token.kind with
    | .string => return .string (← string)
    | .number =>
      skip
      return .number (← numberOf token)
    | .openBracket =>
      skip
      let key ← r.assignment
      let _ ← expect .closeBracket "`]`"
      return .computed key
    | _ => return .name (← word).name
  | none => return .name (← word).name

/-- A target with the default value that may follow it. -/
def withDefault (r : Productions) (start : Nat) (target : Pattern) : Parser Pattern := do
  if ← atEquals then
    skip
    let value ← r.assignment
    return .withDefault (← nodeFrom start) target value
  else return target

/-- One element of an array pattern; a lone comma is a hole. -/
def arrayPatternRound (r : Productions) : Parser (Round (Option Pattern)) := do
  if ← atKind .closeBracket then return .stop
  if ← eat .comma then return .more none
  let start ← start
  let element ←
    if ← eat .ellipsis then
      let target ← r.target
      pure (Pattern.rest (← nodeFrom start) target)
    else
      withDefault r start (← r.target)
  if ← eat .comma then return .more (some element) else return .last (some element)

/-- One property of an object pattern. -/
def patternProperty (r : Productions) : Parser PatternProperty := do
  if ← eat .ellipsis then return .rest (← r.target)
  let begin ← start
  let key ← propertyKey r
  if ← eat .colon then
    let valueStart ← start
    return .keyValue key (← withDefault r valueStart (← r.target))
  else
    match key with
    | .name text =>
      let ident : Ident := ⟨← nodeFrom begin, text⟩
      let target := Pattern.name (← nodeFrom begin) ident
      return .keyValue key (← withDefault r begin target)
    | _ => unexpected "`:`"

/-- A name, an array pattern or an object pattern. -/
def target (r : Productions) : Parser Pattern := do
  let start ← start
  match ← peekKind with
  | some .identifier =>
    let name ← ident
    return .name (← nodeFrom start) name
  | some .openBracket =>
    skip
    let elements ← collect (arrayPatternRound r) (← rounds)
    let _ ← expect .closeBracket "`]`"
    return .array (← nodeFrom start) elements
  | some .openBrace =>
    skip
    let properties ← separated .closeBrace (patternProperty r)
    let _ ← expect .closeBrace "`\x7d`"
    return .object (← nodeFrom start) properties
  | _ => unexpected "binding pattern"

/-- One parameter of a function. -/
def parameter (r : Productions) : Parser Pattern := do
  let start ← start
  if ← eat .ellipsis then
    let argument ← target r
    typeAnnotation r
    return .rest (← nodeFrom start) argument
  else
    let pattern ← target r
    let _ ← eat .question
    typeAnnotation r
    withDefault r start pattern

/-- The parameters of a function. -/
def parameters (r : Productions) : Parser (List Pattern) := do
  let _ ← expect .openParen "`(`"
  let params ← separated .closeParen (parameter r)
  let _ ← expect .closeParen "`)`"
  return params

end Parser

/-! ## Expressions as patterns -/

mutual

/-- Reads an expression as the target of an assignment.  The error is the place of the part that is
no target. -/
def Expr.toPattern : Expr → Except Nat Pattern
  | .member n object property => .ok (.expression n (.member n object property))
  | .index n object property => .ok (.expression n (.index n object property))
  | .name n ident => .ok (.name n ident)
  | .array n elements => do return .array n (← Element.toPatterns elements)
  | .object n properties => do return .object n (← Property.toPatterns n.span.start properties)
  | .assign n .set target value => .ok (.withDefault n target value)
  | e => .error e.node.span.start

/-- Reads elements as the targets of an array pattern. -/
def Element.toPatterns : List Element → Except Nat (List (Option Pattern))
  | [] => .ok []
  | .one e :: es => do
    let p ← e.toPattern
    return some p :: (← Element.toPatterns es)
  | .spread e :: es => do
    let p ← e.toPattern
    return some (.rest Node.synthetic p) :: (← Element.toPatterns es)

/-- Reads properties as the targets of an object pattern; the number is the place of the object. -/
def Property.toPatterns (place : Nat) : List Property → Except Nat (List PatternProperty)
  | [] => .ok []
  | .keyValue key value _ :: ps => do
    let p ← value.toPattern
    return .keyValue key p :: (← Property.toPatterns place ps)
  | .spread e :: ps => do
    let p ← e.toPattern
    return .rest p :: (← Property.toPatterns place ps)
  | .method _ _ :: _ => .error place

end

end Whittle.Syntax
