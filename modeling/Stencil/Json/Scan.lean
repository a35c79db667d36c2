import Stencil.Json

/-!
# JSON lexemes

Blanks, words, strings and numbers at the beginning of a JSON text. Each reader hands back what it
read and the text after it.
-/

namespace Stencil.Json

/-- What is wrong with a JSON text. -/
inductive Fault
  /-- The text ends too soon. -/
  | endsEarly
  /-- A character stands where it must not. -/
  | malformed
deriving DecidableEq, Repr, Inhabited

/-- A blank between lexemes. -/
def isBlank (c : Char) : Bool := c = ' ' || c = '\n' || c = '\t' || c = '\r'

/-- The text from its first character that is no blank. -/
def skipBlanks (cs : List Char) : List Char := cs.dropWhile isBlank

/-- Reads the characters of a word one by one. -/
def word : List Char → List Char → Except Fault (List Char)
  | [], cs => .ok cs
  | _ :: _, [] => .error .endsEarly
  | w :: ws, c :: cs => if w = c then word ws cs else .error .malformed

def hexValue? (c : Char) : Option Nat :=
  if '0' ≤ c && c ≤ '9' then some (c.toNat - '0'.toNat)
  else if 'a' ≤ c && c ≤ 'f' then some (c.toNat - 'a'.toNat + 10)
  else if 'A' ≤ c && c ≤ 'F' then some (c.toNat - 'A'.toNat + 10)
  else none

/-- Reads four hexadecimal digits. A text with less than four bytes left ends too soon, whatever it
holds. -/
def hex4 (cs : List Char) : Except Fault (Nat × List Char) :=
  if (cs.take 4).foldl (fun n c => n + c.utf8Size) 0 < 4 then .error .endsEarly
  else match cs with
    | a :: b :: c :: d :: rest =>
      match hexValue? a, hexValue? b, hexValue? c, hexValue? d with
      | some a, some b, some c, some d => .ok (((a * 16 + b) * 16 + c) * 16 + d, rest)
      | _, _, _, _ => .error .malformed
    | _ => .error .malformed

/-- Reads the second half of a surrogate pair whose first half is `high`. -/
def lowSurrogate (high : Nat) (cs : List Char) : Except Fault (Char × List Char) := do
  let rest ← word ['\\', 'u'] cs
  let (low, rest) ← hex4 rest
  if 0xdc00 ≤ low && low ≤ 0xdfff then
    return (Char.ofNat (0x10000 + (high - 0xd800) * 0x400 + (low - 0xdc00)), rest)
  else .error .malformed

/-- Reads what follows a backslash in a string. -/
def escape : List Char → Except Fault (Char × List Char)
  | [] => .error .endsEarly
  | c :: rest =>
    if c = '"' || c = '\\' || c = '/' then .ok (c, rest)
    else if c = 'b' then .ok ('\x08', rest)
    else if c = 'f' then .ok ('\x0c', rest)
    else if c = 'n' then .ok ('\n', rest)
    else if c = 'r' then .ok ('\r', rest)
    else if c = 't' then .ok ('\t', rest)
    else if c = 'u' then do
      let (unit, rest) ← hex4 rest
      if 0xdc00 ≤ unit && unit ≤ 0xdfff then .error .malformed
      else if 0xd800 ≤ unit && unit ≤ 0xdbff then lowSurrogate unit rest
      else .ok (Char.ofNat unit, rest)
    else .error .malformed

/-- Reads a string whose opening quote has been read; `bound` is at least the number of characters
left. -/
def stringFrom : (bound : Nat) → List Char → Except Fault (List Char × List Char)
  | 0, _ => .error .endsEarly
  | _ + 1, [] => .error .endsEarly
  | bound + 1, c :: cs =>
    if c = '"' then .ok ([], cs)
    else if c = '\\' then do
      let (e, rest) ← escape cs
      let (value, rest) ← stringFrom bound rest
      return (e :: value, rest)
    else if c.toNat < 0x20 then .error .malformed
    else do
      let (value, rest) ← stringFrom bound cs
      return (c :: value, rest)

/-- Reads a string whose opening quote has been read. -/
def quotedString (cs : List Char) : Except Fault (String × List Char) := do
  let (value, rest) ← stringFrom cs.length cs
  return (String.ofList value, rest)

def isDigit (c : Char) : Bool := '0' ≤ c && c ≤ '9'

/-- The number that decimal digits make. -/
def valueOf (digits : List Char) : Nat :=
  digits.foldl (fun n c => n * 10 + (c.toNat - '0'.toNat)) 0

/-- Reads digits, at least one. -/
def digits (cs : List Char) : Except Fault (List Char × List Char) :=
  match cs with
  | [] => .error .endsEarly
  | c :: _ =>
    if isDigit c then .ok (cs.takeWhile isDigit, cs.dropWhile isDigit) else .error .malformed

/-- Reads the digits before the point: more than one only if the first is not zero. -/
def wholePart (cs : List Char) : Except Fault (List Char × List Char) := do
  let (ds, rest) ← digits cs
  match ds with
  | '0' :: _ :: _ => .error .malformed
  | _ => return (ds, rest)

/-- Reads the point and the digits after it, if there is a point. -/
def fraction (cs : List Char) : Except Fault (Option (List Char) × List Char) :=
  match cs with
  | '.' :: rest => do
    let (ds, rest) ← digits rest
    return (some ds, rest)
  | _ => .ok (none, cs)

/-- Reads an exponent, if there is one. -/
def exponent (cs : List Char) : Except Fault (Option Int × List Char) :=
  match cs with
  | [] => .ok (none, cs)
  | c :: rest =>
    if c = 'e' || c = 'E' then
      let (negative, rest) := match rest with
        | '+' :: r => (false, r)
        | '-' :: r => (true, r)
        | _ => (false, rest)
      do
        let (ds, rest) ← digits rest
        let n : Int := (valueOf ds : Nat)
        return (some (if negative then -n else n), rest)
    else .ok (none, cs)

/-- A double, unless the number is too large for one. -/
def doubleOf (negative : Bool) (digits : Nat) (e : Int) : Except Fault Number :=
  match Double.ofDecimal? negative digits e with
  | some d => .ok (.double d)
  | none => .error .malformed

/-- The number of whole numbers that a word without a sign can hold. -/
def wordBound : Nat := 18446744073709551616

/-- The largest absolute value of a negative whole number that a word with a sign can hold. -/
def negativeBound : Nat := 9223372036854775808

/-- Reads a number after its sign. -/
def unsignedNumber (negative : Bool) (cs : List Char) : Except Fault (Number × List Char) := do
  let (whole, rest) ← wholePart cs
  let (part, rest) ← fraction rest
  let (e, rest) ← exponent rest
  match part, e with
  | none, none =>
    let n := valueOf whole
    if negative then
      if n ≠ 0 && n ≤ negativeBound then return (.integer (-(n : Int)), rest)
      else return (← doubleOf true n 0, rest)
    else if n < wordBound then return (.integer n, rest)
    else return (← doubleOf false n 0, rest)
  | _, _ =>
    let part := part.getD []
    return (← doubleOf negative (valueOf (whole ++ part)) (e.getD 0 - (part.length : Int)), rest)

end Stencil.Json
