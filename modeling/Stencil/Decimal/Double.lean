/-!
# Double-precision numbers

Finite binary64 numbers as exact values, and the one nearest to a decimal number. Nothing here
computes with machine floats, so every rounding can be reasoned about.
-/

namespace Stencil

/-- The number `± significand · 2 ^ exponent`. -/
structure Double where
  negative : Bool
  significand : Nat
  exponent : Int
deriving DecidableEq, Repr, Inhabited

/-- The fraction `num / den` with a positive denominator. -/
structure Fraction where
  num : Nat
  den : Nat
deriving DecidableEq, Repr, Inhabited

namespace Fraction

/-- The fraction times `base ^ e`. -/
def scale (f : Fraction) (base : Nat) (e : Int) : Fraction :=
  if e < 0 then ⟨f.num, f.den * base.pow (-e).toNat⟩ else ⟨f.num * base.pow e.toNat, f.den⟩

/-- The largest whole number that is not above the fraction. -/
def floor (f : Fraction) : Nat := f.num / f.den

/-- The nearest whole number; a half goes to the even neighbour. -/
def round (f : Fraction) : Nat :=
  let q := f.num / f.den
  let r := f.num % f.den
  if 2 * r > f.den || (2 * r == f.den && q % 2 == 1) then q + 1 else q

def le (f g : Fraction) : Bool := f.num * g.den ≤ g.num * f.den

/-- Whether the first fraction is strictly below the second. -/
def lt (f g : Fraction) : Bool := f.num * g.den < g.num * f.den

end Fraction

namespace Double

/-- The exponent of the smallest positive number. -/
def leastExponent : Int := -1074

/-- The exponent of the largest numbers. -/
def greatestExponent : Int := 971

/-- The number of significands of one exponent, `2 ^ 53`; significands are below it. -/
def significandBound : Nat := 9007199254740992

/-- The absolute value as a fraction. -/
def magnitude (d : Double) : Fraction := (⟨d.significand, 1⟩ : Fraction).scale 2 d.exponent

/-- The exponent that a fraction has as a double before rounding: the least one for which its
significand stays below the bound. -/
def exponentOf (f : Fraction) : Int :=
  let guess := max ((f.num.log2 : Int) - (f.den.log2 : Int) - 53) leastExponent
  if (f.scale 2 (-guess)).floor < significandBound then guess else guess + 1

/-- The double nearest to `± f`; `none` when `f` is too large. -/
def ofFraction? (negative : Bool) (f : Fraction) : Option Double :=
  if f.num = 0 then some ⟨negative, 0, leastExponent⟩
  else
    let e := exponentOf f
    let s := (f.scale 2 (-e)).round
    let (s, e) := if s = significandBound then (s / 2, e + 1) else (s, e)
    if e > greatestExponent then none else some ⟨negative, s, e⟩

/-- The double nearest to `± digits · 10 ^ e`; `none` when that is too large. Numbers whose order of
magnitude is far out of range are decided without computing them. -/
def ofDecimal? (negative : Bool) (digits : Nat) (e : Int) : Option Double :=
  let order := e + ((Nat.toDigits 10 digits).length : Int)
  if digits = 0 || order < -400 then some ⟨negative, 0, leastExponent⟩
  else if order > 400 then none
  else ofFraction? negative ((⟨digits, 1⟩ : Fraction).scale 10 e)

/-- The number as an integer, if it is whole. -/
def toInt? (d : Double) : Option Int :=
  let f := d.magnitude
  if f.num % f.den = 0 then
    some (if d.negative then -(f.num / f.den : Nat) else (f.num / f.den : Nat))
  else none

end Double

end Stencil
