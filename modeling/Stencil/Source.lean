import Stencil.Position

/-!
# Sources

The text of a template, and the piece of it between two positions.
-/

namespace Stencil

/-- The name and the text of a template. -/
structure Source where
  name : Option String
  text : String
deriving DecidableEq, Repr, Inhabited

namespace Source

/-- The lines of a text with the line feeds that end them. -/
def linesOf : List Char → List (List Char)
  | [] => []
  | c :: cs =>
    if c = '\n' then [c] :: linesOf cs
    else match linesOf cs with
      | [] => [[c]]
      | line :: lines => (c :: line) :: lines

/-- The lines of the template. -/
def lines (s : Source) : List (List Char) := linesOf s.text.toList

/-- The characters of a line from offset `from` up to offset `upTo`; `none` when the offsets are
out of order or lie outside the line. -/
def cut (line : List Char) (start stop : Nat) : Option (List Char) :=
  if start > stop || stop > line.length then none else some ((line.take stop).drop start)

/-- The text that begins at offset `start` of the first line and ends at offset `stop` of the last
line. -/
def cutLines : (start : Nat) → (stop : Option Nat) → List (List Char) → Option (List Char)
  | _, _, [] => some []
  | start, stop, [line] => stop.bind (cut line start)
  | start, stop, line :: next :: lines => do
    let head ← cut line start line.length
    let tail ← cutLines 0 stop (next :: lines)
    return head ++ tail

/-- The characters of `text` between two positions, both included. There are none when a position
is outside the text, as every position of an evaluated text is. -/
def sliceOf (text : List Char) (first last : Position) : Option (List Char) :=
  if first.line < 1 || first.column < 1 || last.line < first.line then none
  else
    let lines := linesOf text
    let above := (first.line - 1).toNat
    let upTo := last.line.toNat
    if upTo > lines.length then none
    else
      let stop := if last.column < 0 then none else some last.column.toNat
      cutLines (first.column - 1).toNat stop ((lines.take upTo).drop above)

/-- The piece of the template between two positions, both included. -/
def slice (s : Source) (first last : Position) : Option String :=
  (sliceOf s.text.toList first last).map String.ofList

@[simp] theorem linesOf_nil : linesOf [] = [] := rfl

/-- The lines make up the text. -/
theorem flatten_linesOf (cs : List Char) : (linesOf cs).flatten = cs := by
  induction cs with
  | nil => rfl
  | cons c cs ih =>
    by_cases h : c = '\n'
    · simp [linesOf, h, ih]
    · simp only [linesOf, h, if_false]
      split
      · next e => rw [e] at ih; simpa using ih
      · next line lines e => rw [e] at ih; simp_all

end Source

end Stencil
