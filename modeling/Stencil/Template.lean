import Stencil.Arena.Cleanup
import Stencil.Tree.Parser
import Stencil.Tree.Dump

/-!
# Templates

A template that has been read and cleaned up. It does not change any more.
-/

namespace Stencil

/-- Cleans up everything below an element; what takes its place becomes the root of a template. -/
def Edit.finish (strip : Bool) (id : ElementId) : Edit ElementId := do
  let root ← Edit.clean strip id
  modify (·.detach root)
  return root

/-- A finished template. -/
structure Template where
  source : Source
  arena : Arena
  root : ElementId
deriving Repr, Inhabited

namespace Template

/-- The template of a tree as it was written. The elements of a loaded tree know their places, so
that cleanup finds all of them; were one missing, the tree would stay as far as it was cleaned up. -/
def ofTree (source : Source) (strip : Bool) (t : Tree) : Template :=
  let (arena, id) := Arena.load {} t
  match Edit.finish strip id arena with
  | .ok root arena => ⟨source, arena, root⟩
  | .error _ arena => ⟨source, arena, id⟩

/-- Reads a template; blanks that only pad directives are dropped if `strip`. -/
def parse (name : Option String) (text : String) (strip : Bool) : Except ParseError Template := do
  let source : Source := ⟨name, text⟩
  return ofTree source strip (← Tree.parse source)

def name? (t : Template) : Option String := t.source.name

/-- The elements as a tree. -/
def tree (t : Template) : Tree := t.arena.tree t.root

/-- The elements in the order of the document. -/
def elements (t : Template) : List ElementId := t.arena.preorder t.root

/-- Text that reads back as the template. -/
def canonical (t : Template) : String := t.tree.fullCanonical

/-- An indented listing of the elements. -/
def dump (t : Template) : String := t.tree.dump

/-- The deepest element that covers a position. -/
def innermost? (t : Template) (p : Position) : Option ElementId := t.arena.innermost? t.root p

end Template

end Stencil
