import Stencil.Json.Scan

/-!
# Reading JSON

The value that a JSON text stands for. Of members with one key the last counts.
-/

namespace Stencil.Json

mutual

/-- Reads a value. `bound` is at least twice the number of characters left. -/
def valueFrom : (bound : Nat) → List Char → Except Fault (Json × List Char)
  | 0, _ => .error .endsEarly
  | bound + 1, cs =>
    match skipBlanks cs with
    | [] => .error .endsEarly
    | 'n' :: rest => do return (.null, ← word ['u', 'l', 'l'] rest)
    | 't' :: rest => do return (.bool true, ← word ['r', 'u', 'e'] rest)
    | 'f' :: rest => do return (.bool false, ← word ['a', 'l', 's', 'e'] rest)
    | '"' :: rest => do
      let (s, rest) ← quotedString rest
      return (.string s, rest)
    | '[' :: rest =>
      match skipBlanks rest with
      | ']' :: rest => .ok (.array [], rest)
      | rest => do
        let (items, rest) ← itemsFrom bound rest
        return (.array items, rest)
    | '\x7b' :: rest =>
      match skipBlanks rest with
      | '\x7d' :: rest => .ok (.object [], rest)
      | rest => do
        let (members, rest) ← membersFrom bound [] rest
        return (.object members, rest)
    | '-' :: rest => do
      let (n, rest) ← unsignedNumber true rest
      return (.number n, rest)
    | rest => do
      let (n, rest) ← unsignedNumber false rest
      return (.number n, rest)

/-- Reads the items of an array up to its end. -/
def itemsFrom : (bound : Nat) → List Char → Except Fault (List Json × List Char)
  | 0, _ => .error .endsEarly
  | bound + 1, cs => do
    let (item, rest) ← valueFrom bound cs
    match skipBlanks rest with
    | [] => .error .endsEarly
    | ']' :: rest => return ([item], rest)
    | ',' :: rest =>
      let (items, rest) ← itemsFrom bound rest
      return (item :: items, rest)
    | _ => .error .malformed

/-- Reads the members of an object up to its end and adds them to those read before. -/
def membersFrom : (bound : Nat) → List (String × Json) → List Char →
    Except Fault (List (String × Json) × List Char)
  | 0, _, _ => .error .endsEarly
  | bound + 1, read, cs =>
    match skipBlanks cs with
    | [] => .error .endsEarly
    | '"' :: rest => do
      let (key, rest) ← quotedString rest
      match skipBlanks rest with
      | [] => .error .endsEarly
      | ':' :: rest =>
        let (value, rest) ← valueFrom bound rest
        let read := insertMember key value read
        match skipBlanks rest with
        | [] => .error .endsEarly
        | '\x7d' :: rest => return (read, rest)
        | ',' :: rest => membersFrom bound read rest
        | _ => .error .malformed
      | _ => .error .malformed
    | _ => .error .malformed

end

/-- The value of a whole text. -/
def parse (text : String) : Except Fault Json := do
  let cs := text.toList
  let (value, rest) ← valueFrom (2 * cs.length + 2) cs
  match skipBlanks rest with
  | [] => return value
  | _ => .error .malformed

end Stencil.Json
