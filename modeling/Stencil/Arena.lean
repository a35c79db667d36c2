import Stencil.Tree

/-!
# Arenas

The elements of a template under construction. They are numbered in the order of their creation, and
each knows its parent, its place in the parent's children, and its own children. A child list owns
storage of a certain capacity: the first child reserves six places, a full list doubles its length,
and a list without children has no storage.
-/

namespace Stencil

abbrev ElementId := Nat

/-- A list of children and the number of places reserved for it. -/
structure ChildBuffer where
  items : List ElementId
  capacity : Nat
deriving DecidableEq, Repr, Inhabited

namespace ChildBuffer

/-- The places that the first child reserves. -/
def initialCapacity : Nat := 6

/-- The storage with room for one more child. -/
def reserve : Option ChildBuffer → ChildBuffer
  | none => ⟨[], initialCapacity⟩
  | some b =>
    if b.items.length = b.capacity then ⟨b.items, b.items.length + max b.items.length 1⟩ else b

/-- The storage with a child at the end. -/
def push (b : Option ChildBuffer) (child : ElementId) : ChildBuffer :=
  let b := reserve b
  { b with items := b.items ++ [child] }

/-- The storage of a list of children that were pushed one by one. -/
def ofList (children : List ElementId) : Option ChildBuffer :=
  children.foldl (fun b child => some (push b child)) none

/-- Gives up the places that are not needed, if they are a quarter or more. -/
def shrink (b : ChildBuffer) : ChildBuffer :=
  if b.items.length < b.capacity ∧ b.items.length ≤ b.capacity * 3 / 4 then
    ⟨b.items, b.items.length⟩
  else b

end ChildBuffer

/-- An element of an arena. -/
structure Element where
  kind : Kind
  location : Location
  parent : Option ElementId := none
  index : Nat := 0
  buffer : Option ChildBuffer := none
deriving DecidableEq, Repr

instance : Inhabited Element := ⟨{ kind := .sequence, location := {} }⟩

def Element.children (e : Element) : List ElementId := (e.buffer.map (·.items)).getD []

/-- All elements that were created, in order. -/
structure Arena where
  elements : Array Element := #[]
deriving Repr, Inhabited

namespace Arena

def size (a : Arena) : Nat := a.elements.size

def get (a : Arena) (id : ElementId) : Element := a.elements.getD id default

def update (a : Arena) (id : ElementId) (f : Element → Element) : Arena :=
  ⟨a.elements.modify id f⟩

@[simp] theorem size_update (a : Arena) (id : ElementId) (f : Element → Element) :
    (a.update id f).size = a.size := by
  simp [size, update]

/-- A change of one element leaves all others as they are. -/
theorem get_update (a : Arena) (id other : ElementId) (f : Element → Element) (h : id < a.size) :
    (a.update id f).get other = if other = id then f (a.get id) else a.get other := by
  have inside : id < a.elements.size := h
  by_cases same : other = id
  · subst same
    simp [get, update, Array.getD_eq_getD_getElem?, Array.getElem_modify, inside]
  · simp [get, update, Array.getD_eq_getD_getElem?, Array.getElem?_modify, same, Ne.symm same]

def children (a : Arena) (id : ElementId) : List ElementId := (a.get id).children

def childCount (a : Arena) (id : ElementId) : Nat := (a.children id).length

def child (a : Arena) (id : ElementId) (index : Nat) : Except OutOfRange ElementId :=
  match (a.children id)[index]? with
  | some c => .ok c
  | none => .error (.child index (a.childCount id))

def parentKind? (a : Arena) (id : ElementId) : Option Kind :=
  (a.get id).parent.map fun p => (a.get p).kind

/-- The tree of an element, down to a depth. -/
def treeWithin (a : Arena) : (depth : Nat) → ElementId → Tree
  | 0, id => ⟨(a.get id).kind, (a.get id).location, a.parentKind? id == some .ifBlock, []⟩
  | depth + 1, id =>
    ⟨(a.get id).kind, (a.get id).location, a.parentKind? id == some .ifBlock,
      (a.children id).map (a.treeWithin depth)⟩

/-- The tree of an element. No branch of it is longer than the number of elements. -/
def tree (a : Arena) (id : ElementId) : Tree := a.treeWithin a.size id

/-- An element and everything below it down to a depth, each element before its children. -/
def preorderWithin (a : Arena) : (depth : Nat) → ElementId → List ElementId
  | 0, id => [id]
  | depth + 1, id => id :: (a.children id).flatMap (a.preorderWithin depth)

/-- An element and everything below it, each element before its children. -/
def preorder (a : Arena) (id : ElementId) : List ElementId := a.preorderWithin a.size id

/-- The deepest element down to a depth that covers a position. Later children are tried first, and
the first that covers the position is not given up again. -/
def innermostWithin (a : Arena) (p : Position) : (depth : Nat) → ElementId → Option ElementId
  | 0, id => if (a.get id).location.contains p then some id else none
  | depth + 1, id =>
    if (a.get id).location.contains p then
      some (((a.children id).reverse.findSome? (a.innermostWithin p depth)).getD id)
    else none

/-- The deepest element from `id` on that covers a position. -/
def innermost? (a : Arena) (id : ElementId) (p : Position) : Option ElementId :=
  a.innermostWithin p a.size id

end Arena

end Stencil
