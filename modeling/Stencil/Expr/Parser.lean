import Stencil.Expr
import Stencil.Lexer

/-!
# Reading expressions

An expression at the beginning of a list of tokens. The operators bind from `||` over `&&`, `==` and
`!=` to `+`, and every one of them groups to the left; `!` binds tighter, `.` and `?eval` tightest.

The last token of the list is the end of the input, which is never taken. Each reader hands back
what it read and the tokens after it.
-/

namespace Stencil

/-- Reads something at the beginning of some tokens. -/
abbrev Reader (α : Type) := List Token → Except ParseError (α × List Token)

def Token.fail {α : Type} (t : Token) (cause : ParseError.Cause) : Except ParseError α :=
  .error ⟨cause, t.first⟩

/-- The kind of the token at the beginning. -/
def nextKind (ts : List Token) : TokenKind := (ts.head?.getD default).kind

instance : Inhabited Token := ⟨⟨.eof, "", ⟨0, 0⟩, ⟨0, 0⟩⟩⟩

/-- Takes a token of the given kind. -/
def expect (kind : TokenKind) : Reader Token
  | [] => Token.fail default (.expectedKind kind default)
  | t :: rest => if t.kind = kind then .ok (t, rest) else t.fail (.expectedKind kind t)

def expectName : Reader String
  | [] => Token.fail default (.expectedIdentifier default)
  | t :: rest =>
    if t.kind = .identifier then .ok (t.value, rest)
    else if t.kind.isReserved then t.fail (.reservedWord t.value)
    else t.fail (.expectedIdentifier t)

namespace Expr

/-- The largest integer that a literal can name, `2 ^ 63 - 1`. -/
def greatestLiteral : Nat := 9223372036854775807

/-- The number that an integer token names. -/
def literalValue (digits : String) : Nat :=
  digits.toList.foldl (fun n c => n * 10 + (c.toNat - '0'.toNat)) 0

/-- The location from the beginning of one span to the end of another. -/
def between (source : Option Source) (a b : Location) : Location := ⟨source, a.first, b.last⟩

def locate (source : Option Source) (t : Token) : Location := ⟨source, t.first, t.last⟩

/-- Reads a literal, a variable or an expression in parentheses; `inner` reads the latter. -/
def readPrimary (source : Option Source) (inner : Reader Expr) : Reader Expr
  | [] => Token.fail default (.expectedExpression default)
  | t :: rest =>
    let loc := locate source t
    match t.kind with
    | .string => .ok (.string loc t.value, rest)
    | .integer =>
      let n := literalValue t.value
      if n ≤ greatestLiteral then .ok (.integer loc n, rest)
      else t.fail (.integerOutOfRange t.value)
    | .keywordTrue => .ok (.boolean loc true, rest)
    | .keywordFalse => .ok (.boolean loc false, rest)
    | .keywordNull => .ok (.null loc, rest)
    | .identifier => .ok (.var loc t.value, rest)
    | .leftParen => do
      let (e, rest) ← inner rest
      let (close, rest) ← expect .rightParen rest
      return (.group ⟨source, t.first, close.last⟩ e, rest)
    | .keywordAs => t.fail (.reservedWord t.value)
    | _ => t.fail (.expectedExpression t)

/-- Reads the keys and built-ins that follow an expression. `bound` is at least the number of tokens
before the end of the input. -/
def readSuffixes (source : Option Source) : (bound : Nat) → Expr → Reader Expr
  | 0, e, ts => .ok (e, ts)
  | bound + 1, e, ts =>
    match ts with
    | [] => .ok (e, [])
    | t :: rest =>
      match t.kind with
      | .dot => do
        let (key, rest) ← expect .identifier rest
        readSuffixes source bound (.dot ⟨source, e.location.first, key.last⟩ e key.value) rest
      | .question => do
        let (name, rest) ← expect .identifier rest
        if name.value = "eval" then
          readSuffixes source bound (.eval ⟨source, e.location.first, name.last⟩ e) rest
        else name.fail (.unknownBuiltin name.value)
      | _ => .ok (e, ts)

/-- Reads an expression with the keys and built-ins that follow it. -/
def readPostfix (source : Option Source) (inner : Reader Expr) : Reader Expr := fun ts => do
  let (e, rest) ← readPrimary source inner ts
  readSuffixes source rest.length e rest

/-- Reads an expression with the negations before it. -/
def readUnary (source : Option Source) (inner : Reader Expr) : Reader Expr
  | [] => readPostfix source inner []
  | t :: rest =>
    if t.kind = .bang then do
      let (e, rest) ← readUnary source inner rest
      return (.not ⟨source, t.first, e.location.last⟩ e, rest)
    else readPostfix source inner (t :: rest)

/-- The operator that a kind of token stands for. -/
def operator? : TokenKind → Option BinaryOp
  | .orOr => some .or
  | .andAnd => some .and
  | .equalEqual => some .equal
  | .notEqual => some .notEqual
  | .plus => some .add
  | _ => none

/-- The operators by how tightly they bind, the loosest first. -/
def levels : List (List BinaryOp) := [[.or], [.and], [.equal, .notEqual], [.add]]

/-- Reads the operators of one level that follow an expression, each with its right operand. `bound`
is at least the number of tokens before the end of the input. -/
def readChain (source : Option Source) (ops : List BinaryOp) (operand : Reader Expr) :
    (bound : Nat) → Expr → Reader Expr
  | 0, left, ts => .ok (left, ts)
  | bound + 1, left, ts =>
    match ts with
    | [] => .ok (left, [])
    | t :: rest =>
      match operator? t.kind with
      | some op =>
        if op ∈ ops then do
          let (right, rest) ← operand rest
          readChain source ops operand bound
            (.binary (between source left.location right.location) op left right) rest
        else .ok (left, ts)
      | none => .ok (left, ts)

/-- Reads an expression whose outermost operators are of the given levels or bind tighter than all
levels. -/
def readLevels (source : Option Source) (inner : Reader Expr) :
    List (List BinaryOp) → Reader Expr
  | [], ts => readUnary source inner ts
  | ops :: tighter, ts => do
    let (left, rest) ← readLevels source inner tighter ts
    readChain source ops (readLevels source inner tighter) rest.length left rest

/-- Reads an expression. `bound` is at least the number of tokens before the end of the input; when
there is no such token, there is no expression. -/
def readWithin (source : Option Source) : (bound : Nat) → Reader Expr
  | 0, ts => (ts.head?.getD default).fail (.expectedExpression (ts.head?.getD default))
  | bound + 1, ts => readLevels source (readWithin source bound) levels ts

def read (source : Option Source) : Reader Expr := fun ts => readWithin source ts.length ts

/-- The expression that a text stands for on its own. It belongs to no template, and its lines count
from `evaluatedFirstLine`. -/
def parse (text : String) : Except ParseError Expr := do
  let tokens ← tokenizeExpression text evaluatedFirstLine
  let (e, rest) ← read none tokens
  match rest with
  | [] => return e
  | t :: _ => if t.kind = .eof then return e else t.fail (.expectedEnd t)

end Expr

end Stencil
