import Stencil.Text.DefaultIgnorable
import Stencil.Text.GraphemeExtend
import Stencil.Text.Unprintable

/-!
# Escaped text

The form in which texts and characters appear in dumps, descriptions and messages: between quotes,
on one line, with every character that could not be seen replaced by an escape.
-/

namespace Stencil.Text

/-- The lower-case hexadecimal digits of a number, without leading zeros. -/
def hexDigits (n : Nat) : List Char := Nat.toDigits 16 n

/-- A code point in hexadecimal between braces, after a backslash and a `u`. -/
def unicodeEscape (c : Char) : List Char :=
  ['\\', 'u', '\x7b'] ++ hexDigits c.toNat ++ ['\x7d']

/-- The two halfwidth letters for voicing. They extend the character before them and yet take up room
of their own, so they can be seen. -/
def isHalfwidthVoicing (c : Char) : Bool := c = '\uff9e' || c = '\uff9f'

/-- A character that could not be seen, or not on its own. -/
def isHidden (c : Char) : Bool :=
  (isGraphemeExtend c && !isHalfwidthVoicing c) || isDefaultIgnorable c || isUnprintable c

/-- One character of an escaped text whose delimiter is `quote`. -/
def escapeChar (quote : Char) (c : Char) : List Char :=
  if c = '\x00' then ['\\', '0']
  else if c = '\t' then ['\\', 't']
  else if c = '\r' then ['\\', 'r']
  else if c = '\n' then ['\\', 'n']
  else if c = '\\' then ['\\', '\\']
  else if c = quote then ['\\', quote]
  else if isHidden c then unicodeEscape c
  else [c]

/-- A text between double quotes. -/
def escaped (s : String) : String :=
  String.ofList ('"' :: s.toList.flatMap (escapeChar '"') ++ ['"'])

/-- A character between single quotes. -/
def escapedChar (c : Char) : String :=
  String.ofList ('\'' :: escapeChar '\'' c ++ ['\''])

end Stencil.Text
