import Stencil.Arena

/-!
# Walks

The neighbours of an element: its siblings, and the leaves before and after it in the order of the
document. For these walks a macro definition and a captured body are leaves, since neither runs where
it stands.
-/

namespace Stencil.Arena

def previousSibling? (a : Arena) (id : ElementId) : Except OutOfRange (Option ElementId) :=
  match (a.get id).parent, (a.get id).index with
  | some parent, index + 1 => (a.child parent index).map some
  | _, _ => .ok none

def nextSibling? (a : Arena) (id : ElementId) : Option ElementId :=
  (a.get id).parent.bind fun parent => (a.children parent)[(a.get id).index + 1]?

/-- Whether walks go no deeper than this element. -/
def isTerminal (a : Arena) (id : ElementId) : Bool :=
  (a.children id).isEmpty || (a.get id).kind.isUnit

/-- The first leaf down to a depth. -/
def firstLeafWithin (a : Arena) : (depth : Nat) → ElementId → ElementId
  | 0, id => id
  | depth + 1, id =>
    if a.isTerminal id then id
    else match (a.children id).head? with
      | some c => a.firstLeafWithin depth c
      | none => id

/-- The last leaf down to a depth. -/
def lastLeafWithin (a : Arena) : (depth : Nat) → ElementId → ElementId
  | 0, id => id
  | depth + 1, id =>
    if a.isTerminal id then id
    else match (a.children id).getLast? with
      | some c => a.lastLeafWithin depth c
      | none => id

def firstLeaf (a : Arena) (id : ElementId) : ElementId := a.firstLeafWithin a.size id

def lastLeaf (a : Arena) (id : ElementId) : ElementId := a.lastLeafWithin a.size id

/-- The leaf before an element, climbing at most `height` times. -/
def previousTerminalWithin (a : Arena) : (height : Nat) → ElementId →
    Except OutOfRange (Option ElementId)
  | 0, _ => .ok none
  | height + 1, id => do
    match ← a.previousSibling? id with
    | some sibling => return some (a.lastLeaf sibling)
    | none =>
      match (a.get id).parent with
      | some parent => a.previousTerminalWithin height parent
      | none => return none

/-- The leaf after an element, climbing at most `height` times. -/
def nextTerminalWithin (a : Arena) : (height : Nat) → ElementId → Option ElementId
  | 0, _ => none
  | height + 1, id =>
    match a.nextSibling? id with
    | some sibling => some (a.firstLeaf sibling)
    | none =>
      match (a.get id).parent with
      | some parent => a.nextTerminalWithin height parent
      | none => none

/-- The leaf that runs right before an element. -/
def previousTerminal? (a : Arena) (id : ElementId) : Except OutOfRange (Option ElementId) :=
  a.previousTerminalWithin (a.size + 1) id

/-- The leaf that runs right after an element. -/
def nextTerminal? (a : Arena) (id : ElementId) : Option ElementId :=
  a.nextTerminalWithin (a.size + 1) id

end Stencil.Arena
