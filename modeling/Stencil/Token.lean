import Stencil.Location

/-!
# Tokens

The words of a template: stretches of text, comments, and what stands inside tags.
-/

namespace Stencil

/-- The kinds of token. -/
inductive TokenKind
  /-- Text outside tags. -/
  | text
  /-- A comment; its value is what stands between the percent sign and the closing bracket. -/
  | comment
  /-- The brackets that open a tag. -/
  | opening
  /-- The brackets that close a tag. -/
  | closing
  /-- The mark of a directive. -/
  | hash
  /-- The mark of a closing directive. -/
  | slash
  /-- The mark of a macro call. -/
  | atSign
  | dot
  | comma
  | equal
  | equalEqual
  | notEqual
  | bang
  | andAnd
  | orOr
  | plus
  | leftParen
  | rightParen
  /-- The mark of a built-in. -/
  | question
  /-- A string literal; its value is the text it stands for. -/
  | string
  | integer
  /-- A letter or underscore followed by letters, digits and underscores, all ASCII. -/
  | identifier
  | keywordTrue
  | keywordFalse
  | keywordNull
  | keywordAs
  /-- The end of the input. -/
  | eof
deriving DecidableEq, Repr, Inhabited

namespace TokenKind

/-- How a kind is written when all its tokens are written alike. -/
def spelling? : TokenKind → Option String
  | opening => some "\x7b["
  | closing => some "]\x7d"
  | hash => some "#"
  | slash => some "/"
  | atSign => some "@"
  | dot => some "."
  | comma => some ","
  | equal => some "="
  | equalEqual => some "=="
  | notEqual => some "!="
  | bang => some "!"
  | andAnd => some "&&"
  | orOr => some "||"
  | plus => some "+"
  | leftParen => some "("
  | rightParen => some ")"
  | question => some "?"
  | _ => none

/-- The name of a kind in messages. -/
def name : TokenKind → String
  | text => "Text"
  | comment => "Comment"
  | opening => "Open"
  | closing => "Close"
  | hash => "Hash"
  | slash => "Slash"
  | atSign => "At"
  | dot => "Dot"
  | comma => "Comma"
  | equal => "Equal"
  | equalEqual => "EqEq"
  | notEqual => "NotEq"
  | bang => "Bang"
  | andAnd => "AndAnd"
  | orOr => "OrOr"
  | plus => "Plus"
  | leftParen => "LParen"
  | rightParen => "RParen"
  | question => "Question"
  | string => "String"
  | integer => "Integer"
  | identifier => "Ident"
  | keywordTrue => "KwTrue"
  | keywordFalse => "KwFalse"
  | keywordNull => "KwNull"
  | keywordAs => "KwAs"
  | eof => "Eof"

/-- The kind of a word: a reserved word or an identifier. -/
def ofWord (word : String) : TokenKind :=
  if word = "true" then keywordTrue
  else if word = "false" then keywordFalse
  else if word = "null" then keywordNull
  else if word = "as" then keywordAs
  else identifier

/-- A kind of words that cannot name anything. -/
def isReserved : TokenKind → Bool
  | keywordTrue | keywordFalse | keywordNull | keywordAs => true
  | _ => false

end TokenKind

/-- A token and the positions of its first and last character. -/
structure Token where
  kind : TokenKind
  value : String
  first : Position
  last : Position
deriving DecidableEq, Repr, Inhabited

end Stencil
