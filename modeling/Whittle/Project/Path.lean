/-!
# Paths

File paths as texts, read part by part.  Repeated separators, separators at the end and parts that
say "here" mean nothing, except at the start of a relative path.
-/

namespace Whittle

/-- The parts of a path. -/
structure Path where
  /-- Whether it starts at the root. -/
  isAbsolute : Bool
  /-- The names from there on. -/
  names : List String
deriving DecidableEq, Repr

namespace Path

/-- The texts between separators. -/
def segments (text : String) : List String :=
  ((text.toList.splitOn '/').map String.ofList).filter (!·.isEmpty)

/-- Reads a path. -/
def ofText (text : String) : Path :=
  let isAbsolute := text.toList.head? == some '/'
  match segments text with
  | [] => ⟨isAbsolute, []⟩
  | first :: rest =>
    let rest := rest.filter (· != ".")
    if isAbsolute && first == "." then ⟨true, rest⟩ else ⟨isAbsolute, first :: rest⟩

/-- Writes a path. -/
def text (p : Path) : String :=
  (if p.isAbsolute then "/" else "") ++ String.intercalate "/" p.names

/-- The one text for all texts that mean the same path. -/
def key (path : String) : String := (ofText path).text

/-- The names of a path with "here" and "one up" worked out; nothing is above the root or the
start. -/
def resolveNames (names : List String) : List String :=
  (names.foldl
    (fun done name =>
      if name == "." then done else if name == ".." then done.tail else name :: done)
    []).reverse

/-- Removes "here" and "one up" from a path. -/
def normalize (path : String) : String :=
  let p := ofText path
  text { p with names := resolveNames p.names }

/-- Drops what means nothing from the end of a path, which is given the last character first. -/
def trimEnd (isAbsolute : Bool) : List Char → List Char
  | '/' :: rest => trimEnd isAbsolute rest
  | '.' :: '/' :: rest => trimEnd isAbsolute rest
  | ['.'] => if isAbsolute then [] else ['.']
  | text => text

/-- The path without its last part, if it has one.  What stands before that part is kept as it is
written. -/
def parent? (path : String) : Option String :=
  let (root, body) := match path.toList with
    | '/' :: body => (['/'], body)
    | body => ([], body)
  let trim := trimEnd !root.isEmpty
  match trim body.reverse with
  | [] => none
  | text => some (String.ofList (root ++ (trim (text.dropWhile (· != '/'))).reverse))

/-- A path and the paths above it as long as they have a last part. -/
def ancestors (path : String) : List String := go path.length path
where
  go : (fuel : Nat) → String → List String
  | 0, _ => []
  | fuel + 1, path =>
    match parent? path with
    | none => []
    | some above => path :: go fuel above

/-- A path seen from a base. -/
def join (base path : String) : String :=
  if path.toList.head? == some '/' || base.isEmpty then path
  else if base.toList.getLast? == some '/' then base ++ path
  else base ++ "/" ++ path

/-- The last part, if it is the name of something. -/
def fileName? (path : String) : Option String :=
  match (ofText path).names.getLast? with
  | some "." | some ".." => none
  | name => name

/-- What is left of a path below a root. -/
def below? (root path : String) : Option String :=
  let r := ofText root
  let p := ofText path
  if r.isAbsolute == p.isAbsolute && r.names.isPrefixOf p.names then
    some (text ⟨false, p.names.drop r.names.length⟩)
  else none

/-- A path that ends in `.ts` with `.js` in its place.  A name that is nothing but `.ts` stays, and
a name of which two dots would be left is taken for the directory above. -/
def toScript (path : String) : String :=
  match path.toList.reverse with
  | 's' :: 't' :: '.' :: c :: rest =>
    if c == '/' then path
    else if c == '.' && (rest.head?.getD '/') == '/' then String.ofList ('.' :: '.' :: rest).reverse
    else String.ofList (c :: rest).reverse ++ ".js"
  | _ => path

end Path

end Whittle
