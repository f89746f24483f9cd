import Whittle.Text.Source

/-!
# Tokens

A token is a piece of source text with its place and its kind.  Between two tokens stand blanks and
comments only; the token remembers whether a line ended there, because a statement may end at such a
place without a semicolon.
-/

namespace Whittle

/-- What a token is. -/
inductive TokenKind where
  | keyword
  | identifier
  | number
  | string
  | openParen
  | closeParen
  | openBracket
  | closeBracket
  | openBrace
  | closeBrace
  | semicolon
  | comma
  | dot
  | ellipsis
  | question
  | colon
  | arrow
  | plusPlus
  | minusMinus
  | operator
  | logicalAnd
  | logicalOr
  | nullish
  | assignment
deriving DecidableEq, Repr, Inhabited

/-- A piece of source text. -/
structure Token where
  /-- What it is. -/
  kind : TokenKind
  /-- Where it stands. -/
  span : Span
  /-- Whether a line ended between the token before and this one. -/
  newlineBefore : Bool
  /-- Its characters. -/
  text : String
deriving DecidableEq, Repr, Inhabited

namespace Token

/-- The words that are not identifiers. -/
def keywords : List String :=
  ["var", "let", "const", "function", "return", "if", "else", "while", "do", "for", "break",
   "continue", "throw", "class", "extends", "new", "this", "typeof", "void", "delete", "in",
   "instanceof", "import", "export", "default", "true", "false", "null", "static"]

/-- Punctuation, longer texts before shorter ones, so that the first match is the longest. -/
def punctuators : List (String × TokenKind) :=
  [(">>>=", .assignment),
   ("...", .ellipsis), ("===", .operator), ("!==", .operator), ("**=", .assignment),
   ("<<=", .assignment), (">>=", .assignment), (">>>", .operator), ("&&=", .assignment),
   ("||=", .assignment), ("??=", .assignment),
   ("=>", .arrow), ("==", .operator), ("!=", .operator), ("<=", .operator), (">=", .operator),
   ("&&", .logicalAnd), ("||", .logicalOr), ("??", .nullish), ("++", .plusPlus),
   ("--", .minusMinus), ("+=", .assignment), ("-=", .assignment), ("*=", .assignment),
   ("/=", .assignment), ("%=", .assignment), ("&=", .assignment), ("|=", .assignment),
   ("^=", .assignment), ("**", .operator), ("<<", .operator), (">>", .operator),
   ("(", .openParen), (")", .closeParen), ("[", .openBracket), ("]", .closeBracket),
   ("\x7b", .openBrace), ("\x7d", .closeBrace), (";", .semicolon), (",", .comma), (".", .dot),
   ("?", .question), (":", .colon), ("=", .assignment), ("+", .operator), ("-", .operator),
   ("*", .operator), ("/", .operator), ("%", .operator), ("&", .operator), ("|", .operator),
   ("^", .operator), ("!", .operator), ("~", .operator), ("<", .operator), (">", .operator)]

/-- Whether the token is the given keyword. -/
def isKeyword (t : Token) (word : String) : Bool := t.kind == .keyword && t.text == word

/-- Whether the token is the given operator. -/
def isOperator (t : Token) (text : String) : Bool := t.kind == .operator && t.text == text

/-- Whether the token is a word, keyword or not. -/
def isWord (t : Token) : Bool := t.kind == .identifier || t.kind == .keyword

end Token

end Whittle
