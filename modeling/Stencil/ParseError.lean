import Stencil.Token
import Stencil.Text.Escaped

/-!
# Parse errors

Why a text is no template or no expression, and where. `ParseError.message` is the wording.
-/

namespace Stencil

/-- The directives that have a body and a closing tag. -/
inductive Block
  | conditional
  | list
  | assign
  | definition
deriving DecidableEq, Repr, Inhabited

/-- The word that opens and closes a block. -/
def Block.keyword : Block → String
  | .conditional => "if"
  | .list => "list"
  | .assign => "assign"
  | .definition => "macro"

/-- What a text can leave open at its end. -/
inductive Unfinished
  | tag
  | comment
  | stringLiteral
  | block (b : Block)
deriving DecidableEq, Repr, Inhabited

/-- The name of an unfinished part in messages. -/
def Unfinished.name : Unfinished → String
  | .tag => "tag"
  | .comment => "comment"
  | .stringLiteral => "string literal"
  | .block b => "#" ++ b.keyword

/-- Why a text cannot be read. -/
inductive ParseError.Cause
  /-- A character that begins no token. -/
  | unexpectedCharacter (c : Char)
  /-- The text ends inside something. -/
  | unterminated (what : Unfinished)
  /-- Blanks between the opening brackets and the mark of a directive or call. -/
  | blankBeforeMark (mark : Char)
  /-- A token where text or a tag had to begin. -/
  | strayToken (got : Token)
  /-- A closing tag or branch that belongs to no open directive. -/
  | strayClosing (got : Token)
  /-- A token of another kind than the one that had to follow. -/
  | expectedKind (kind : TokenKind) (got : Token)
  | expectedExpression (got : Token)
  | expectedIdentifier (got : Token)
  | expectedDirective (got : Token)
  | expectedEnd (got : Token)
  /-- A branch that does not stand in an if block. -/
  | branchOutsideIf (got : Token)
  /-- A branch that follows the else branch. -/
  | branchAfterElse (got : Token)
  | duplicateParameter (name : String)
  | unknownBuiltin (name : String)
  | unknownDirective (name : String)
  /-- A closing tag of another directive than the open one. -/
  | mismatchedClose (expected : String) (found : String)
  /-- A reserved word where a name had to stand. -/
  | reservedWord (word : String)
  /-- An integer literal above the largest 64-bit integer. -/
  | integerOutOfRange (literal : String)
deriving DecidableEq, Repr, Inhabited

/-- Why a text cannot be read, and where the reader noticed. -/
structure ParseError where
  cause : ParseError.Cause
  position : Position
deriving DecidableEq, Repr, Inhabited

/-- A token as messages show it. -/
def Token.describe (t : Token) : String :=
  match t.kind with
  | .eof => "end of input"
  | .text => "text"
  | .string => "string " ++ Text.escaped t.value
  | _ => "'" ++ t.value ++ "'"

/-- A kind of token as messages show it. -/
def TokenKind.describe (k : TokenKind) : String :=
  match k.spelling? with
  | some s => "'" ++ s ++ "'"
  | none => k.name

namespace ParseError

def Cause.message : Cause → String
  | unexpectedCharacter c => "unexpected character " ++ Text.escapedChar c
  | unterminated what => "unterminated " ++ what.name ++ " starting"
  | blankBeforeMark mark =>
    "whitespace not allowed between '\x7b[' and '" ++ String.singleton mark ++ "'"
  | strayToken got => "unexpected token: " ++ got.describe
  | strayClosing got => "closing tag without an open directive: " ++ got.describe
  | expectedKind kind got => "expected " ++ kind.describe ++ ", got " ++ got.describe
  | expectedExpression got => "expected an expression: " ++ got.describe
  | expectedIdentifier got => "expected an identifier: " ++ got.describe
  | expectedDirective got => "expected a directive name: " ++ got.describe
  | expectedEnd got => "expected end of expression: " ++ got.describe
  | branchOutsideIf got => "branch without an enclosing '#if': " ++ got.describe
  | branchAfterElse got => "branch after '#else': " ++ got.describe
  | duplicateParameter name => "duplicate macro parameter '" ++ name ++ "'"
  | unknownBuiltin name => "unknown built-in '?" ++ name ++ "'"
  | unknownDirective name => "unknown directive '#" ++ name ++ "'"
  | mismatchedClose expected found =>
    "expected '\x7b[/" ++ expected ++ "]\x7d' but found '" ++ found ++ "'"
  | reservedWord word => "reserved word '" ++ word ++ "' cannot be used as identifier"
  | integerOutOfRange literal => "integer literal " ++ literal ++ " out of range"

/-- A position at the end of a message. -/
def describePosition (p : Position) : String :=
  if p.line < 0 then p.describe none
  else "line " ++ toString p.line ++ ", column " ++ toString p.column

def message (e : ParseError) : String := e.cause.message ++ " at " ++ describePosition e.position

end ParseError

end Stencil
