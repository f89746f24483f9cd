import Whittle.Project.Compile

/-!
# Arguments

What the words of a command line mean.  Options may stand anywhere before a lone `--`; each may be
given once, short ones may be written together, and a value may stand in the same word or in the next
one.  Exactly one word that is no option names the entry module.
-/

namespace Whittle

open Ir

/-- What the user asks for. -/
structure Command where
  /-- The entry module. -/
  entry : String
  /-- Where the output goes; nothing when it is printed. -/
  output : Option String
  /-- What is made of each module. -/
  target : Target
  /-- Which passes run. -/
  options : Options

namespace Command

/-- Options of the command line. -/
inductive Switch where
  | output
  | emit
  | maxRounds
  | without (pass : Pass)
  | withoutAll
  | verbose
deriving DecidableEq, Repr

namespace Switch

/-- Whether a value belongs to the option. -/
def takesValue : Switch → Bool
  | .output | .emit | .maxRounds => true
  | _ => false

/-- The option of a long name. -/
def ofLong? : String → Option Switch
  | "output" => some .output
  | "emit" => some .emit
  | "max-iterations" => some .maxRounds
  | "no-constant-propagation" => some (.without .propagation)
  | "no-load-store-forwarding" => some (.without .forwarding)
  | "no-dead-code-elimination" => some (.without .sweeping)
  | "no-function-inlining" => some (.without .inlining)
  | "no-redundant-copy-elimination" => some (.without .overwriting)
  | "no-merge-blocks" => some (.without .merging)
  | "no-optimize" => some .withoutAll
  | "verbose" => some .verbose
  | _ => none

/-- The option of a letter. -/
def ofShort? : Char → Option Switch
  | 'o' => some .output
  | 'v' => some .verbose
  | _ => none

end Switch

/-- One argument. -/
inductive Argument where
  /-- A word that is no option. -/
  | operand (word : String)
  /-- An option without a value. -/
  | flag (switch : Switch)
  /-- An option with its value. -/
  | setting (switch : Switch) (value : String)
deriving DecidableEq, Repr

/-- The option of an argument. -/
def Argument.switch? : Argument → Option Switch
  | .operand _ => none
  | .flag switch => some switch
  | .setting switch _ => some switch

/-- What the letters behind a dash mean: arguments, and an option that waits for its value. -/
def readLetters : List Char → Option (List Argument × Option Switch)
  | [] => some ([], none)
  | c :: rest => do
    let switch ← Switch.ofShort? c
    if switch.takesValue then
      match rest with
      | [] => some ([], some switch)
      | '=' :: value => some ([.setting switch (String.ofList value)], none)
      | value => some ([.setting switch (String.ofList value)], none)
    else
      let (more, waiting) ← readLetters rest
      some (.flag switch :: more, waiting)

/-- What the text behind two dashes means: an argument, or an option that waits for its value. -/
def readLong (text : List Char) : Option (List Argument × Option Switch) := do
  let switch ← Switch.ofLong? (String.ofList (text.takeWhile (· != '=')))
  match text.dropWhile (· != '='), switch.takesValue with
  | [], true => some ([], some switch)
  | [], false => some ([.flag switch], none)
  | _ :: value, true => some ([.setting switch (String.ofList value)], none)
  | _ :: _, false => none

/-- What one word means. -/
def readWord (word : String) : Option (List Argument × Option Switch) :=
  match word.toList with
  | '-' :: '-' :: text => readLong text
  | '-' :: c :: letters => readLetters (c :: letters)
  | _ => some ([.operand word], none)

/-- Whether a word can be the value of the option before it. -/
def isValue (word : String) : Bool := word == "-" || !word.startsWith "-"

/-- The arguments of a command line; nothing if an option is unknown, lacks its value or has one too
many. -/
def readWords : List String → Option (List Argument)
  | [] => some []
  | "--" :: rest => some (rest.map .operand)
  | word :: rest => do
    match ← readWord word, rest with
    | (arguments, none), rest => return arguments ++ (← readWords rest)
    | (_, some _), [] => none
    | (arguments, some switch), value :: rest =>
      if isValue value then
        return arguments ++ .setting switch value :: (← readWords rest)
      else none

/-- A limit of rounds, as it is stored in 64 bits. -/
def limit? (text : String) : Option Nat :=
  (Text.natural? 10 text.toList).bind fun n => if n < UInt64.size then some n else none

/-- Applies an argument to what is asked for so far; nothing if its value makes no sense. -/
def update? (c : Command) : Argument → Option Command
  | .operand "" => none
  | .operand word => some { c with entry := word }
  | .setting .output "" => none
  | .setting .output path => some { c with output := some path }
  | .setting .emit "js" => some { c with target := .code }
  | .setting .emit "hir" => some { c with target := .dump ⟨false⟩ }
  | .setting .maxRounds text =>
    (limit? text).map fun maxRounds => { c with options := { c.options with maxRounds } }
  | .flag (.without pass) => some { c with options := c.options.set pass false }
  | .flag .withoutAll =>
    some { c with options := { Options.none with maxRounds := c.options.maxRounds } }
  | .flag .verbose => some c
  | _ => none

/-- What a command line asks for; nothing if it makes no sense. -/
def ofWords? (words : List String) : Option Command := do
  let arguments ← readWords words
  let operands := arguments.filter (·.switch?.isNone)
  if operands.length == 1 && (arguments.filterMap (·.switch?)).Nodup then
    arguments.foldlM update? ⟨"", none, .code, .default⟩
  else none

end Command

end Whittle
