/-!
# Positions

Lines and columns of a template. Both count from 1; columns count characters, and a line feed
belongs to the line it ends.
-/

namespace Stencil

structure Position where
  line : Int
  column : Int
deriving DecidableEq, Repr, Inhabited

namespace Position

/-- The first character of a text. -/
def start : Position := ⟨1, 1⟩

/-- The position after a character that stands here. -/
def next (p : Position) (c : Char) : Position :=
  if c = '\n' then ⟨p.line + 1, 1⟩ else ⟨p.line, p.column + 1⟩

/-- The position after a text that begins here. -/
def after (p : Position) : List Char → Position
  | [] => p
  | c :: cs => (p.next c).after cs

/-- The position of the last character of a text that begins here; `p` itself when the text is
empty. -/
def last (p : Position) : List Char → Position
  | [] => p
  | [_] => p
  | c :: cs => (p.next c).last cs

@[simp] theorem after_nil (p : Position) : p.after [] = p := rfl

@[simp] theorem after_cons (p : Position) (c : Char) (cs : List Char) :
    p.after (c :: cs) = (p.next c).after cs := rfl

theorem after_append (p : Position) (xs ys : List Char) :
    p.after (xs ++ ys) = (p.after xs).after ys := by
  induction xs generalizing p with
  | nil => rfl
  | cons c cs ih => exact ih (p.next c)

end Position

/-- The first line of the lines used for texts that are parsed while a template runs. Such a text
stands in no template, so its lines are far below the lines of any template. -/
def evaluatedFirstLine : Int := -1000000000

/-- A position as it is shown to the reader: the lines of an evaluated text count from 1 again. -/
def Position.describe (name : Option String) (p : Position) : String :=
  if p.line < 0 then
    s!"evaluated string:{p.line - evaluatedFirstLine + 1}:{p.column}"
  else
    (name.getD "<nameless>") ++ s!":{p.line}:{p.column}"

end Stencil
