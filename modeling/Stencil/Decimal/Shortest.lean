import Stencil.Decimal.Double

/-!
# Shortest decimal form

The decimal number with the fewest digits that reads back as a given double, the nearest one if
there are several, and two ways of writing it.
-/

namespace Stencil

/-- The number `digits · 10 ^ exponent`. -/
structure Decimal where
  digits : Nat
  exponent : Int
deriving DecidableEq, Repr, Inhabited

namespace Decimal

def toFraction (d : Decimal) : Fraction := (⟨d.digits, 1⟩ : Fraction).scale 10 d.exponent

/-- How many times a fraction below 1 can be multiplied by 10 before it reaches 1, at most
`steps`. -/
def stepsToOne : (steps : Nat) → Fraction → Nat
  | 0, _ => 0
  | steps + 1, f => if f.den ≤ f.num then 0 else 1 + stepsToOne steps ⟨f.num * 10, f.den⟩

/-- The least `p` for which a positive fraction is below `10 ^ p`. -/
def orderOf (f : Fraction) : Int :=
  if f.den ≤ f.num then ((Nat.toDigits 10 f.floor).length : Int)
  else 1 - (stepsToOne 400 f : Int)

/-- The fractions that read back as a double. -/
structure Basin where
  low : Fraction
  high : Fraction
  closed : Bool
deriving Repr, Inhabited

/-- The basin of a positive double: it ends half way to the neighbours, and the ends belong to it
when the significand is even. Below a power of two the neighbour is nearer. -/
def basinOf (d : Double) : Basin :=
  let quarter := (fun n : Nat => (⟨n, 4⟩ : Fraction).scale 2 d.exponent)
  let nearer := d.significand = Double.significandBound / 2 ∧ d.exponent > Double.leastExponent
  ⟨quarter (4 * d.significand - if nearer then 1 else 2), quarter (4 * d.significand + 2),
    d.significand % 2 = 0⟩

/-- Whether a fraction reads back. -/
def Basin.has (b : Basin) (f : Fraction) : Bool :=
  if b.closed then b.low.le f && f.le b.high else b.low.lt f && f.lt b.high

/-- Which of two equally near decimals is taken. -/
inductive Tie
  | upper
  /-- The one whose last digit is even. -/
  | even
deriving DecidableEq, Repr, Inhabited

/-- Whether a fraction is rounded up to a whole number. -/
def Tie.roundsUp (tie : Tie) (f : Fraction) : Bool :=
  match tie with
  | upper => (⟨2 * f.floor + 1, 2⟩ : Fraction).le f
  | even => f.floor < f.round

/-- The neighbour of `f` on the grid of multiples of `10 ^ e` that reads back; of two, the nearer
one. -/
def onGrid? (tie : Tie) (b : Basin) (f : Fraction) (e : Int) : Option Decimal :=
  let scaled := f.scale 10 (-e)
  let below := scaled.floor
  let lower : Decimal := ⟨below, e⟩
  let upper : Decimal := ⟨below + 1, e⟩
  match b.has lower.toFraction, b.has upper.toFraction with
  | true, true => some (if tie.roundsUp scaled then upper else lower)
  | true, false => some lower
  | false, true => some upper
  | false, false => none

/-- The first grid that has a decimal, from `digits` significant digits on. -/
def search (tie : Tie) (b : Basin) (f : Fraction) (order : Int) :
    (tries : Nat) → (digits : Nat) → Option Decimal
  | 0, _ => none
  | tries + 1, digits =>
    match onGrid? tie b f (order - digits) with
    | some d => some d
    | none => search tie b f order tries (digits + 1)

/-- Drops the zeros at the end of the digits. -/
def trim : (tries : Nat) → Decimal → Decimal
  | 0, d => d
  | tries + 1, d =>
    if d.digits ≠ 0 ∧ d.digits % 10 = 0 then trim tries ⟨d.digits / 10, d.exponent + 1⟩ else d

/-- The shortest decimal that reads back as the absolute value of a double. -/
def shortest (tie : Tie) (d : Double) : Decimal :=
  let f := d.magnitude
  if f.num = 0 then ⟨0, 0⟩
  else trim 20 ((search tie (basinOf d) f (orderOf f) 17 1).getD ⟨0, 0⟩)

/-- The digits of a positive decimal. -/
def digitString (d : Decimal) : List Char := Nat.toDigits 10 d.digits

def zeros (count : Int) : List Char := List.replicate count.toNat '0'

/-- How a decimal is written. -/
structure Style where
  /-- The orders of magnitude that are written without an exponent; all when absent. -/
  positional : Option (Int × Int)
  /-- Whether a whole number ends in a point and a zero. -/
  pointZero : Bool
  tie : Tie
deriving Repr, Inhabited

/-- Never an exponent and no superfluous point. -/
def Style.plain : Style := ⟨none, false, .upper⟩

/-- A point in every number without an exponent; an exponent, with its sign, from seventeen digits on
and below one in a hundred thousand. -/
def Style.pointed : Style := ⟨some (-4, 16), true, .even⟩

/-- The digits without an exponent. -/
def positional (style : Style) (d : Decimal) : List Char :=
  let ds := d.digitString
  let order := d.exponent + (ds.length : Int)
  if 0 ≤ d.exponent then
    ds ++ zeros d.exponent ++ (if style.pointZero then ['.', '0'] else [])
  else if 0 < order then ds.take order.toNat ++ '.' :: ds.drop order.toNat
  else ['0', '.'] ++ zeros (-order) ++ ds

/-- One digit before the point, and an exponent with its sign. -/
def scientific (d : Decimal) : List Char :=
  let ds := d.digitString
  let order := d.exponent + (ds.length : Int)
  let mantissa := match ds with
    | c :: e :: rest => c :: '.' :: e :: rest
    | _ => ds
  mantissa ++ 'e' :: (if 0 < order then ['+'] else []) ++ (toString (order - 1)).toList

def write (style : Style) (d : Decimal) : List Char :=
  let order := d.exponent + (d.digitString.length : Int)
  match style.positional with
  | none => d.positional style
  | some (low, high) =>
    if d.digits = 0 || (low ≤ order && order ≤ high) then d.positional style else d.scientific

end Decimal

/-- A double in a style, in as few digits as read back. -/
def Double.write (style : Decimal.Style) (d : Double) : String :=
  String.ofList ((if d.negative then ['-'] else []) ++ (Decimal.shortest style.tie d).write style)

end Stencil
