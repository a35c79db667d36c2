import Stencil.Decimal.Double

/-!
# JSON values

The form in which data comes to a template. A number keeps whether it was written as a whole number
of 64 bits; an object lists its members by ascending key, each key once.
-/

namespace Stencil

inductive Json.Number
  /-- Written without point and exponent, between `-2 ^ 63` and `2 ^ 64 - 1`. -/
  | integer (n : Int)
  /-- Any other number, as the nearest double. -/
  | double (d : Double)
deriving DecidableEq, Repr, Inhabited

inductive Json
  | null
  | bool (b : Bool)
  | number (n : Json.Number)
  | string (s : String)
  | array (items : List Json)
  | object (members : List (String × Json))
deriving Repr, Inhabited

namespace Json

/-- Adds a member at its place in the order of keys; a member of the same key is replaced. -/
def insertMember (key : String) (value : Json) : List (String × Json) → List (String × Json)
  | [] => [(key, value)]
  | (k, v) :: rest =>
    if key = k then (key, value) :: rest
    else if key < k then (key, value) :: (k, v) :: rest
    else (k, v) :: insertMember key value rest

end Json

end Stencil
