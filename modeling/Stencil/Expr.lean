import Stencil.Location
import Stencil.Text.Quoted

/-!
# Expressions

The expressions of interpolations and directives, and their canonical form: the text that reads back
as the same expression, with one blank around every operator.
-/

namespace Stencil

inductive BinaryOp
  | or
  | and
  | equal
  | notEqual
  | add
deriving DecidableEq, Repr, Inhabited

/-- How an operator is written. -/
def BinaryOp.symbol : BinaryOp → String
  | or => "||"
  | and => "&&"
  | equal => "=="
  | notEqual => "!="
  | add => "+"

/-- An expression; every part knows its location. -/
inductive Expr
  | string (loc : Location) (value : String)
  | integer (loc : Location) (value : Int)
  | boolean (loc : Location) (value : Bool)
  | null (loc : Location)
  | var (loc : Location) (name : String)
  /-- The value of a key; the key is a plain name. -/
  | dot (loc : Location) (target : Expr) (key : String)
  | binary (loc : Location) (op : BinaryOp) (left right : Expr)
  | not (loc : Location) (operand : Expr)
  /-- An expression in parentheses. -/
  | group (loc : Location) (inner : Expr)
  /-- Reads the text value of the target as an expression and takes its value. -/
  | eval (loc : Location) (target : Expr)
deriving DecidableEq, Repr, Inhabited

namespace Expr

def location : Expr → Location
  | string loc _ | integer loc _ | boolean loc _ | null loc | var loc _ | dot loc _ _
  | binary loc _ _ _ | not loc _ | group loc _ | eval loc _ => loc

/-- The text that reads back as the expression. -/
def canonical : Expr → String
  | string _ s => quote s
  | integer _ n => toString n
  | boolean _ b => if b then "true" else "false"
  | null _ => "null"
  | var _ name => name
  | dot _ target key => target.canonical ++ "." ++ key
  | binary _ op left right => left.canonical ++ " " ++ op.symbol ++ " " ++ right.canonical
  | not _ operand => "!" ++ operand.canonical
  | group _ inner => "(" ++ inner.canonical ++ ")"
  | eval _ target => target.canonical ++ "?eval"

/-- A short name of the outermost construct. -/
def descriptor : Expr → String
  | dot _ _ _ => "."
  | binary _ op _ _ => op.symbol
  | not _ _ => "!"
  | group _ _ => "(...)"
  | eval _ _ => "?eval"
  | e => e.canonical

/-- The template text of an expression, or its canonical form when there is no such text. -/
def source (e : Expr) : String :=
  match e.location.slice? with
  | some s => if s.isEmpty then e.canonical else s
  | none => e.canonical

end Expr

end Stencil
