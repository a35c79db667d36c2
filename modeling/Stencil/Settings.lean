import Stencil.Json.Scan
import Stencil.Decimal.Shortest
import Stencil.Text.Escaped

/-!
# Settings

The options that bear on reading templates and on inclusions, and how they are read from a JSON
document: an object with some of the fields, or an array that gives the fields in order. A field that
is left out has its default.

The document is read from left to right, and the first thing that is wrong with it is the error.
-/

namespace Stencil

/-- The options of a template. -/
structure Settings where
  /-- Whether blanks around directives that take up whole lines are dropped. -/
  stripWhitespace : Bool := true
  /-- The folder that inclusions start from; without one there are no inclusions. -/
  includeRoot : Option String := none
  /-- What follows the name of an inclusion in the name of its file. -/
  templateExtension : String := "tsr"
deriving DecidableEq, Repr, Inhabited

namespace Settings

/-- A value that is not of the type that has to stand there. -/
inductive Found
  | null
  | boolean (b : Bool)
  | number (n : Json.Number)
  | string (s : String)
  | sequence
  | map
deriving DecidableEq, Repr, Inhabited

/-- A value as messages show it. -/
def Found.describe : Found → String
  | null => "null"
  | boolean b => "boolean `" ++ (if b then "true" else "false") ++ "`"
  | number (.integer n) => "integer `" ++ toString n ++ "`"
  | number (.double d) => "floating point `" ++ d.write .pointed ++ "`"
  | string s => "string " ++ Text.escaped s
  | sequence => "sequence"
  | map => "map"

/-- What has to stand somewhere. -/
inductive Expected
  | settings
  | boolean
  | string
  | path
deriving DecidableEq, Repr, Inhabited

/-- The name of what has to stand somewhere. -/
def Expected.describe : Expected → String
  | settings => "struct Settings"
  | boolean => "a boolean"
  | string => "a string"
  | path => "path string"

/-- The fields of the settings, in order. -/
inductive Field
  | stripWhitespace
  | includeRoot
  | templateExtension
deriving DecidableEq, Repr, Inhabited

def Field.key : Field → String
  | stripWhitespace => "strip_whitespace"
  | includeRoot => "include_root"
  | templateExtension => "template_extension"

def Field.all : List Field := [.stripWhitespace, .includeRoot, .templateExtension]

/-- Why a document is no settings. -/
inductive Fault
  /-- The document is no JSON text. -/
  | text (f : Json.Fault)
  | wrongType (found : Found) (expected : Expected)
  | unknownField (key : String)
  | duplicateField (field : Field)
deriving DecidableEq, Repr, Inhabited

/-- A key as messages show it. -/
def shownKey (key : String) : String := "`" ++ key ++ "`"

/-- The wording of a fault that does not lie in the text itself. -/
def Fault.message? : Fault → Option String
  | text _ => none
  | wrongType found expected =>
    some ("invalid type: " ++ found.describe ++ ", expected " ++ expected.describe)
  | unknownField key =>
    some ("unknown field " ++ shownKey key ++ ", expected one of " ++
      ", ".intercalate (Field.all.map fun f => shownKey f.key))
  | duplicateField field => some ("duplicate field " ++ shownKey field.key)

/-- Reads something at the beginning of a document. -/
abbrev Reading (α : Type) := List Char → Except Fault (α × List Char)

/-- A failure that lies in the text. -/
def fail {α : Type} (f : Json.Fault) : Except Fault α := .error (.text f)

/-- Takes over the result of reading a lexeme. -/
def lexeme {α : Type} : Except Json.Fault α → Except Fault α
  | .ok x => .ok x
  | .error f => fail f

/-- Refuses the value at the beginning of a text. Of an array or an object nothing more is looked
at. -/
def refuse {α : Type} (expected : Expected) (cs : List Char) : Except Fault α := do
  let found : Found ← match cs with
    | [] => fail .endsEarly
    | 'n' :: rest => do
      let _ ← lexeme (Json.word ['u', 'l', 'l'] rest)
      pure .null
    | 't' :: rest => do
      let _ ← lexeme (Json.word ['r', 'u', 'e'] rest)
      pure (.boolean true)
    | 'f' :: rest => do
      let _ ← lexeme (Json.word ['a', 'l', 's', 'e'] rest)
      pure (.boolean false)
    | '"' :: rest => do pure (.string (← lexeme (Json.quotedString rest)).1)
    | '[' :: _ => pure .sequence
    | '\x7b' :: _ => pure .map
    | '-' :: rest => do pure (.number (← lexeme (Json.unsignedNumber true rest)).1)
    | c :: rest =>
      if Json.isDigit c then do pure (.number (← lexeme (Json.unsignedNumber false (c :: rest))).1)
      else fail .malformed
  .error (.wrongType found expected)

def readBoolean : Reading Bool := fun cs =>
  match Json.skipBlanks cs with
  | 't' :: rest => do return (true, ← lexeme (Json.word ['r', 'u', 'e'] rest))
  | 'f' :: rest => do return (false, ← lexeme (Json.word ['a', 'l', 's', 'e'] rest))
  | cs => refuse .boolean cs

def readString (expected : Expected) : Reading String := fun cs =>
  match Json.skipBlanks cs with
  | '"' :: rest => lexeme (Json.quotedString rest)
  | cs => refuse expected cs

/-- Reads a path, which may be null. -/
def readPath : Reading (Option String) := fun cs =>
  match Json.skipBlanks cs with
  | 'n' :: rest => do return (none, ← lexeme (Json.word ['u', 'l', 'l'] rest))
  | cs => do
    let (path, rest) ← readString .path cs
    return (some path, rest)

def readField (field : Field) (s : Settings) : Reading Settings := fun cs =>
  match field with
  | .stripWhitespace => do
    let (b, rest) ← readBoolean cs
    return ({ s with stripWhitespace := b }, rest)
  | .includeRoot => do
    let (p, rest) ← readPath cs
    return ({ s with includeRoot := p }, rest)
  | .templateExtension => do
    let (e, rest) ← readString .string cs
    return ({ s with templateExtension := e }, rest)

/-- Reads the items that are left of an array, for the fields that are left. -/
def readItems : List Field → (isFirst : Bool) → Settings → Reading Settings
  | [], _, s, cs =>
    match Json.skipBlanks cs with
    | [] => fail .endsEarly
    | ']' :: rest => .ok (s, rest)
    | _ => fail .malformed
  | field :: fields, isFirst, s, cs =>
    match Json.skipBlanks cs with
    | [] => fail .endsEarly
    | ']' :: rest => .ok (s, rest)
    | c :: rest =>
      if isFirst then do
        let (s, rest) ← readField field s (c :: rest)
        readItems fields false s rest
      else if c = ',' then
        match Json.skipBlanks rest with
        | [] => fail .endsEarly
        | ']' :: _ => fail .malformed
        | rest => do
          let (s, rest) ← readField field s rest
          readItems fields false s rest
      else fail .malformed

/-- Reads a member of an object from its key's opening quote on. -/
def readMember (seen : List Field) (s : Settings) : Reading (Settings × Field) := fun cs =>
  match cs with
  | '"' :: rest => do
    let (key, rest) ← lexeme (Json.quotedString rest)
    match Field.all.find? fun f => f.key = key with
    | none => .error (.unknownField key)
    | some field =>
      if field ∈ seen then .error (.duplicateField field)
      else match Json.skipBlanks rest with
        | [] => fail .endsEarly
        | ':' :: rest => do
          let (s, rest) ← readField field s rest
          return ((s, field), rest)
        | _ => fail .malformed
  | _ => fail .malformed

/-- Reads the members that are left of an object. Every member takes a field that was not seen yet,
so there are at most `bound` of them. -/
def readMembers : (bound : Nat) → (seen : List Field) → (isFirst : Bool) → Settings →
    Reading Settings
  | 0, _, _, _, _ => fail .malformed
  | bound + 1, seen, isFirst, s, cs =>
    match Json.skipBlanks cs with
    | [] => fail .endsEarly
    | '\x7d' :: rest => .ok (s, rest)
    | c :: rest =>
      if isFirst then do
        let ((s, field), rest) ← readMember seen s (c :: rest)
        readMembers bound (field :: seen) false s rest
      else if c = ',' then
        match Json.skipBlanks rest with
        | [] => fail .endsEarly
        | rest => do
          let ((s, field), rest) ← readMember seen s rest
          readMembers bound (field :: seen) false s rest
      else fail .malformed

/-- The settings that a document stands for. -/
def parse (document : String) : Except Fault Settings := do
  let (s, rest) ← match Json.skipBlanks document.toList with
    | '[' :: rest => readItems Field.all true {} rest
    | '\x7b' :: rest => readMembers (Field.all.length + 2) [] true {} rest
    | cs => refuse .settings cs
  match Json.skipBlanks rest with
  | [] => return s
  | _ => fail .malformed

end Settings

end Stencil
