/-!
# String literals

How a text is written as a string literal of the template language, and how the part of a literal
after its opening quote is read back. A backslash before `n`, `r` or `t` stands for a line feed, a
carriage return or a tab, and before any other character for that character.
-/

namespace Stencil.Text.Quoted

/-- One character of a literal. -/
def encodeChar (c : Char) : List Char :=
  if c = '"' then ['\\', '"']
  else if c = '\\' then ['\\', '\\']
  else if c = '\n' then ['\\', 'n']
  else if c = '\r' then ['\\', 'r']
  else if c = '\t' then ['\\', 't']
  else [c]

/-- The literal for a text, quotes included. -/
def encode (cs : List Char) : List Char := '"' :: cs.flatMap encodeChar ++ ['"']

/-- The character that a backslash and `c` stand for. -/
def unescape (c : Char) : Char :=
  if c = 'n' then '\n' else if c = 'r' then '\r' else if c = 't' then '\t' else c

/-- What a literal holds and how it was written. -/
structure Literal where
  /-- The characters the literal stands for. -/
  value : List Char
  /-- The characters of the literal after its opening quote, the closing quote included. -/
  written : List Char
  /-- The text after the literal. -/
  rest : List Char
deriving Repr, DecidableEq

/-- Puts a character in front, written as `raw`. -/
def Literal.push (raw : List Char) (c : Char) (l : Literal) : Literal :=
  ⟨c :: l.value, raw ++ l.written, l.rest⟩

/-- Reads a literal whose opening quote has been read; `none` when its closing quote is missing. -/
def decode : List Char → Option Literal
  | [] => none
  | '"' :: rest => some ⟨[], ['"'], rest⟩
  | '\\' :: [] => none
  | '\\' :: c :: rest => (decode rest).map (·.push ['\\', c] (unescape c))
  | c :: rest => (decode rest).map (·.push [c] c)

/-- The literal's characters and the rest make up the text that was read. -/
theorem written_append_rest {cs : List Char} {l : Literal} (h : decode cs = some l) :
    l.written ++ l.rest = cs := by
  fun_induction decode cs generalizing l with
  | case1 => simp at h
  | case2 rest => simp only [Option.some.injEq] at h; subst h; rfl
  | case3 => simp at h
  | case4 c rest ih =>
    obtain ⟨m, hm, rfl⟩ := Option.map_eq_some_iff.1 h
    simp [Literal.push, ih hm]
  | case5 c rest _ _ _ ih =>
    obtain ⟨m, hm, rfl⟩ := Option.map_eq_some_iff.1 h
    simp [Literal.push, ih hm]

/-- Reading undoes writing, whatever follows the literal. -/
theorem decode_encode (cs rest : List Char) :
    decode (cs.flatMap encodeChar ++ '"' :: rest) =
      some ⟨cs, cs.flatMap encodeChar ++ ['"'], rest⟩ := by
  induction cs with
  | nil => rfl
  | cons c cs ih =>
    rw [List.flatMap_cons, List.append_assoc]
    by_cases quote : c = '"'
    · subst quote; simp [encodeChar, decode, ih, Literal.push, unescape]
    by_cases backslash : c = '\\'
    · subst backslash; simp [encodeChar, decode, ih, Literal.push, unescape]
    by_cases lineFeed : c = '\n'
    · subst lineFeed; simp [encodeChar, decode, ih, Literal.push, unescape]
    by_cases carriageReturn : c = '\r'
    · subst carriageReturn; simp [encodeChar, decode, ih, Literal.push, unescape]
    by_cases tab : c = '\t'
    · subst tab; simp [encodeChar, decode, ih, Literal.push, unescape]
    simp [encodeChar, quote, backslash, lineFeed, carriageReturn, tab, decode, ih, Literal.push]

end Stencil.Text.Quoted

namespace Stencil

/-- A text as a string literal of the template language. -/
def quote (s : String) : String := String.ofList (Text.Quoted.encode s.toList)

end Stencil
