import Stencil.Expr.Parser
import Stencil.Context
import Stencil.TemplateError

/-!
# Evaluation

The value of an expression in a context. A text that is evaluated as an expression of its own counts
as one level of nesting, like a running macro call or inclusion.
-/

namespace Stencil

/-- The most macro calls, inclusions and evaluated texts that may be open at a time. -/
def maxNesting : Nat := 100

namespace Expr

/-- A type error at an expression. -/
def mismatch {α : Type} (e : Expr) (fault : TypeFault) : Except TemplateError α :=
  .error (.type fault (.ofExpr e))

/-- The sum of two values of the expression `e`: of integers, if it is in the safe range, and else
the texts of strings and integers one after the other. -/
def add (e : Expr) : Value → Value → Except TemplateError Value
  | .integer a, .integer b =>
    if Value.InRange (a + b) then .ok (.integer (a + b)) else e.mismatch (.sumOutOfRange a b)
  | .string a, .string b => .ok (.string (a ++ b))
  | .string a, .integer b => .ok (.string (a ++ toString b))
  | .integer a, .string b => .ok (.string (toString a ++ b))
  | a, b => e.mismatch (.cannotAdd a.typeName b.typeName)

/-- The value of a key of the value `v`, for the expression `e`. -/
def select (e : Expr) (key : String) : Value → Except TemplateError Value
  | .hash entries =>
    match entries.lookup key with
    | some v => .ok v
    | none => .error (.undefinedVariable e.canonical (.ofExpr e))
  | v => e.mismatch (.noKeys key v.typeName)

/-- The value of an expression. `run` finds the value of a text that the given expression evaluates. -/
def evaluateWith (c : Context) (run : Expr → String → Except TemplateError Value) :
    Expr → Except TemplateError Value
  | string _ s => .ok (.string s)
  | integer loc n =>
    match Value.ofInt n with
    | .ok v => .ok v
    | .error err => (integer loc n).mismatch (.literal err)
  | boolean _ b => .ok (.boolean b)
  | null _ => .ok .null
  | var loc name =>
    match c.lookup name with
    | some v => .ok v
    | none => .error (.undefinedVariable name (.ofExpr (var loc name)))
  | dot loc target key => do
    (dot loc target key).select key (← evaluateWith c run target)
  | binary loc op left right => do
    let a ← evaluateWith c run left
    match op with
    | .or =>
      if a.isTruthy then return .boolean true
      else return .boolean (← evaluateWith c run right).isTruthy
    | .and =>
      if a.isTruthy then return .boolean (← evaluateWith c run right).isTruthy
      else return .boolean false
    | .equal => return .boolean (a.same (← evaluateWith c run right))
    | .notEqual => return .boolean (!a.same (← evaluateWith c run right))
    | .add => (binary loc .add left right).add a (← evaluateWith c run right)
  | not _ operand => do return .boolean (!(← evaluateWith c run operand).isTruthy)
  | group _ inner => evaluateWith c run inner
  | eval loc target => do
    match ← evaluateWith c run target with
    | .string code => run (eval loc target) code
    | v => (eval loc target).mismatch (.notCode v.typeName)

/-- The value of an expression when `levels` more levels of nesting may be opened. -/
def evaluateWithin : (levels : Nat) → Context → Expr → Except TemplateError Value
  | 0, c => evaluateWith c fun site _ => .error (.tooDeep maxNesting (.ofExpr site))
  | levels + 1, c => evaluateWith c fun site code =>
    match Expr.parse code with
    | .error e => .error (.eval e (.ofExpr site))
    | .ok fragment => evaluateWithin levels c fragment

/-- The value of an expression when nothing is running. -/
def evaluate (c : Context) (e : Expr) : Except TemplateError Value :=
  evaluateWithin maxNesting c e

end Expr

end Stencil
