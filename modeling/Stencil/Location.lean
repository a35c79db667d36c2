import Stencil.Source

/-!
# Locations

Where a part of a template stands: its first and its last position, and the source they refer to.
Parts of an evaluated text have no source.
-/

namespace Stencil

/-- A span of a source; `last` is the position of its last character. -/
structure Location where
  source : Option Source := none
  first : Position := ⟨0, 0⟩
  last : Position := ⟨0, 0⟩
deriving DecidableEq, Repr, Inhabited

namespace Location

/-- The span of a tag whose body may be empty: it ends at the last child if there is one, and at the
tag's own end otherwise. -/
def enclosing (source : Option Source) (tagFirst tagLast : Position) (child : Option Location) :
    Location :=
  ⟨source, tagFirst, (child.map (·.last)).getD tagLast⟩

/-- The name of the template the location refers to. -/
def name? (l : Location) : Option String := l.source.bind (·.name)

/-- Whether the location is one of a text that was parsed while a template ran. -/
def isEvaluated (l : Location) : Bool := l.first.line < 0

/-- Whether a position falls inside the span, ends included. -/
def contains (l : Location) (p : Position) : Bool :=
  !(p.line < l.first.line || p.line > l.last.line ||
    (p.line == l.first.line && p.column < l.first.column) ||
    (p.line == l.last.line && p.column > l.last.column))

/-- The template text that the location covers. -/
def slice? (l : Location) : Option String := l.source.bind (·.slice l.first l.last)

/-- The beginning of the location as it is shown to the reader. -/
def describe (l : Location) : String := l.first.describe l.name?

end Location

end Stencil
