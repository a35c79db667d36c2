import Stencil.Arena

/-!
# Building

Creating elements and linking them. An edit that asks for a place that does not exist fails and
leaves the arena as it is.
-/

namespace Stencil

/-- A change of an arena. -/
abbrev Edit := EStateM OutOfRange Arena

namespace Arena

/-- An arena with one more element, which is not linked to any other. -/
def create (a : Arena) (kind : Kind) (location : Location) : Arena × ElementId :=
  (⟨a.elements.push { kind, location }⟩, a.size)

@[simp] theorem size_create (a : Arena) (kind : Kind) (location : Location) :
    (a.create kind location).1.size = a.size + 1 := by
  simp [size, create]

/-- Creating an element adds one without links and leaves all others as they are. -/
theorem get_create (a : Arena) (kind : Kind) (location : Location) (id : ElementId) :
    (a.create kind location).1.get id = if id = a.size then { kind, location } else a.get id := by
  simp only [get, create, Array.getD_eq_getD_getElem?, Array.getElem?_push, size]
  split <;> rfl

/-- Makes an element the child at an index of a parent, as far as the child is concerned. -/
def link (a : Arena) (child parent : ElementId) (index : Nat) : Arena :=
  a.update child fun e => { e with parent := some parent, index }

/-- Takes an element's parent away. -/
def detach (a : Arena) (child : ElementId) : Arena :=
  a.update child fun e => { e with parent := none, index := 0 }

/-- Links some children to their parent, the first of them at `index`. -/
def linkAll (a : Arena) (parent : ElementId) : (index : Nat) → List ElementId → Arena
  | _, [] => a
  | index, c :: cs => (a.link c parent index).linkAll parent (index + 1) cs

/-- Links the children of a parent again, from position `start` on. -/
def relink (a : Arena) (parent : ElementId) (start : Nat) : Arena :=
  a.linkAll parent start ((a.children parent).drop start)

/-- Gives an element other storage. -/
def setBuffer (a : Arena) (id : ElementId) (buffer : Option ChildBuffer) : Arena :=
  a.update id fun e => { e with buffer }

/-- Puts an element in place of a child, as far as the parent is concerned. -/
def putChild (a : Arena) (parent : ElementId) (index : Nat) (child : ElementId) : Arena :=
  a.update parent fun e =>
    { e with buffer := e.buffer.map fun b => { b with items := b.items.set index child } }

/-- Gives an element other children. Its old children lose their parent. -/
def setChildren (a : Arena) (parent : ElementId) (buffer : Option ChildBuffer) : Arena :=
  let a := (a.children parent).foldl detach (a.setBuffer parent none)
  (a.setBuffer parent (buffer.filter fun b => !b.items.isEmpty)).relink parent 0

end Arena

namespace Edit

/-- What can be read off the arena. -/
def observe {α : Type} (f : Arena → Except OutOfRange α) : Edit α := fun a =>
  match f a with
  | .ok x => .ok x a
  | .error e => .error e a

/-- Creates an element that is not linked to any other. -/
def create (kind : Kind) (location : Location) : Edit ElementId := fun a =>
  .ok (a.create kind location).2 (a.create kind location).1

/-- Makes an element the child at an index; the children from there on move up. -/
def insertChild (parent : ElementId) (index : Nat) (child : ElementId) : Edit Unit := do
  let a ← get
  if index > a.childCount parent then throw (.child index (a.childCount parent))
  else
    let b := ChildBuffer.reserve (a.get parent).buffer
    set ((a.setBuffer parent (some { b with items := b.items.insertIdx index child })).relink
      parent index)

def addChild (parent child : ElementId) : Edit Unit := do
  insertChild parent ((← get).childCount parent) child

/-- Puts an element in place of the child at an index, which loses its parent. -/
def setChildAt (parent : ElementId) (index : Nat) (child : ElementId) : Edit Unit := do
  let old ← observe (·.child parent index)
  modify (·.putChild parent index child)
  if old ≠ child then modify (·.detach old)
  modify (·.link child parent index)

def setChildren (parent : ElementId) (buffer : Option ChildBuffer) : Edit Unit :=
  modify (·.setChildren parent buffer)

/-- Takes the child at an index out; the children after it move down. -/
def removeChild (parent : ElementId) (index : Nat) : Edit ElementId := do
  let removed ← observe (·.child parent index)
  modify fun a =>
    let kept := ((a.get parent).buffer.map fun b => { b with items := b.items.eraseIdx index }).filter
      fun b => !b.items.isEmpty
    ((a.setBuffer parent kept).detach removed).relink parent index
  return removed

end Edit

namespace Arena

mutual

/-- Creates the elements of a tree, each after its children, and links them. -/
def load (a : Arena) : Tree → Arena × ElementId
  | ⟨kind, location, _, children⟩ =>
    let (a, ids) := a.loads children
    let (a, id) := a.create kind location
    (a.setChildren id (ChildBuffer.ofList ids), id)

/-- Creates the elements of some trees. -/
def loads (a : Arena) : List Tree → Arena × List ElementId
  | [] => (a, [])
  | t :: ts =>
    let (a, id) := a.load t
    let (a, ids) := a.loads ts
    (a, id :: ids)

end

end Arena

end Stencil
