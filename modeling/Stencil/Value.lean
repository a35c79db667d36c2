import Stencil.Json
import Stencil.Decimal.Shortest

/-!
# Values

What expressions stand for while a template runs, and which data they can come from. Integers are
those that every consumer of JSON reads exactly; numbers with a fraction are not supported.
-/

namespace Stencil

/-- A value. The entries of a hash are listed by ascending key, each key once. -/
inductive Value
  | null
  | boolean (b : Bool)
  | integer (n : Int)
  | string (s : String)
  | sequence (items : List Value)
  | hash (entries : List (String × Value))
deriving Repr, Inhabited

/-- What is wrong with data, or with a value where it is used. -/
inductive ValueError
  | integerOutOfRange (n : Int)
  | floatNotSupported (d : Double)
  /-- The data of a template is no hash; the name is that of its type. -/
  | rootNotHash (type : String)
  /-- A value of this type has no text. -/
  | notStringifiable (type : String)
deriving DecidableEq, Repr, Inhabited

def ValueError.message : ValueError → String
  | integerOutOfRange n => "integer out of range: " ++ toString n
  | floatNotSupported d => "floating point numbers are not supported: " ++ d.write .plain
  | rootNotHash type => "data model root must be a hash, got " ++ type
  | notStringifiable type => "cannot convert " ++ type ++ " to string"

namespace Value

/-- The largest integer of the safe range, which is symmetric. -/
def integerMax : Int := 9007199254740991

/-- The safe range. -/
def InRange (n : Int) : Prop := -integerMax ≤ n ∧ n ≤ integerMax

instance (n : Int) : Decidable (InRange n) := inferInstanceAs (Decidable (_ ∧ _))

/-- An integer of the safe range. -/
def ofInt (n : Int) : Except ValueError Value :=
  if InRange n then .ok (.integer n) else .error (.integerOutOfRange n)

/-- The integer that a double stands for. -/
def ofDouble (d : Double) : Except ValueError Value :=
  match d.toInt? with
  | some n => if InRange n then .ok (.integer n) else .error (.floatNotSupported d)
  | none => .error (.floatNotSupported d)

/-- The least positive integer that does not fit 64 bits with a sign, `2 ^ 63`. -/
def signedBound : Int := 9223372036854775808

/-- The value of a number. Whole numbers that do not fit 64 bits with a sign are taken as doubles. -/
def ofNumber : Json.Number → Except ValueError Value
  | .integer n =>
    if n < signedBound then ofInt n
    else match Double.ofDecimal? false n.toNat 0 with
      | some d => ofDouble d
      | none => .error (.integerOutOfRange n)
  | .double d => ofDouble d

mutual

/-- The value of some data. The first bad number in the order of items and keys is the error. -/
def ofJson : Json → Except ValueError Value
  | .null => .ok .null
  | .bool b => .ok (.boolean b)
  | .number n => ofNumber n
  | .string s => .ok (.string s)
  | .array items => do return .sequence (← ofItems items)
  | .object members => do return .hash (← ofMembers members)

def ofItems : List Json → Except ValueError (List Value)
  | [] => .ok []
  | j :: js => do return (← ofJson j) :: (← ofItems js)

def ofMembers : List (String × Json) → Except ValueError (List (String × Value))
  | [] => .ok []
  | (k, j) :: js => do return (k, ← ofJson j) :: (← ofMembers js)

end

/-- Whether a value counts as true in a condition. -/
def isTruthy : Value → Bool
  | null => false
  | boolean b => b
  | integer n => n != 0
  | string s => !s.isEmpty
  | sequence items => !items.isEmpty
  | hash entries => !entries.isEmpty

/-- The name of a value's type in messages. -/
def typeName : Value → String
  | null => "null"
  | boolean _ => "boolean"
  | integer _ => "integer"
  | string _ => "string"
  | sequence _ => "sequence"
  | hash _ => "hash"

/-- The text of a value; only strings and integers have one. -/
def stringify : Value → Except ValueError String
  | string s => .ok s
  | integer n => .ok (toString n)
  | v => .error (.notStringifiable v.typeName)

mutual

def same : Value → Value → Bool
  | null, null => true
  | boolean a, boolean b => a == b
  | integer a, integer b => a == b
  | string a, string b => a == b
  | sequence as, sequence bs => sameItems as bs
  | hash as, hash bs => sameEntries as bs
  | _, _ => false

def sameItems : List Value → List Value → Bool
  | [], [] => true
  | a :: as, b :: bs => same a b && sameItems as bs
  | _, _ => false

def sameEntries : List (String × Value) → List (String × Value) → Bool
  | [], [] => true
  | (k, a) :: as, (l, b) :: bs => k == l && same a b && sameEntries as bs
  | _, _ => false

end

end Value

end Stencil
