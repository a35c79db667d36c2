import Stencil.Parameter

/-!
# Trees

An element with everything below it. A tree is what is parsed, run and printed; it has neither
identities nor links upwards, so it is recursive data.
-/

namespace Stencil

/-- An element with its children. -/
structure Tree where
  kind : Kind
  location : Location
  /-- Whether the element stands in an if block, which then closes it. -/
  inBlock : Bool
  children : List Tree
deriving Repr, Inhabited

namespace Tree

mutual

/-- The number of elements. -/
def size : Tree → Nat
  | ⟨_, _, _, children⟩ => 1 + sizes children

/-- The number of elements of some trees. -/
def sizes : List Tree → Nat
  | [] => 0
  | t :: ts => t.size + sizes ts

end

theorem size_eq (t : Tree) : t.size = 1 + sizes t.children := by
  cases t; rfl

theorem size_pos (t : Tree) : 0 < t.size := by
  rw [size_eq]; omega

theorem size_le_sizes {t : Tree} {ts : List Tree} (h : t ∈ ts) : t.size ≤ sizes ts := by
  induction ts with
  | nil => cases h
  | cons u us ih =>
    rw [sizes]
    rcases List.mem_cons.1 h with rfl | h
    · omega
    · have := ih h; omega

/-- The body of an element is smaller than the element. -/
theorem sizes_children_lt (t : Tree) : sizes t.children < t.size := by
  rw [size_eq]; omega

/-- The body of a branch is smaller than the element that holds the branch. -/
theorem sizes_branch_lt {t b : Tree} (h : b ∈ t.children) : sizes b.children < t.size := by
  have hbody := b.sizes_children_lt
  have hbranch := size_le_sizes h
  have hblock := t.sizes_children_lt
  omega

/-- What holds of no trees, and of some trees when it holds of whatever is smaller than the first one and of
the others, holds of all trees. -/
@[elab_as_elim]
theorem sizes_induction {motive : List Tree → Prop} (nil : motive [])
    (cons : ∀ t ts, (∀ us, sizes us < t.size → motive us) → motive ts → motive (t :: ts)) (ts : List Tree) :
    motive ts := by
  suffices h : ∀ n ts, sizes ts ≤ n → motive ts from h _ ts (Nat.le_refl _)
  intro n
  induction n with
  | zero =>
    intro ts hn
    cases ts with
    | nil => exact nil
    | cons t ts => have := t.size_pos; rw [sizes] at hn; omega
  | succ n ih =>
    intro ts hn
    cases ts with
    | nil => exact nil
    | cons t ts =>
      have hpos := t.size_pos
      rw [sizes] at hn
      exact cons t ts (fun us hus => ih us (by omega)) (ih ts (by omega))

/-- What holds of no trees, and of some trees when it holds of the first one's children and of the
others, holds of all trees. -/
@[elab_as_elim]
theorem forest_induction {motive : List Tree → Prop} (nil : motive [])
    (cons : ∀ t ts, motive t.children → motive ts → motive (t :: ts)) (ts : List Tree) : motive ts := by
  induction ts using sizes_induction with
  | nil => exact nil
  | cons t ts smaller ih => exact cons t ts (smaller _ t.sizes_children_lt) ih

mutual

/-- The element and everything below it, each element before its children. -/
def preorder : Tree → List Tree
  | ⟨kind, location, inBlock, children⟩ => ⟨kind, location, inBlock, children⟩ :: preorders children

/-- The elements of some trees, one tree after the other. -/
def preorders : List Tree → List Tree
  | [] => []
  | t :: ts => t.preorder ++ preorders ts

end

/-- The tag that closes an element with a body. -/
def closeTag (kind : Kind) (inBlock : Bool) : String :=
  match kind with
  | .ifBlock => Kind.tag "/if"
  | .conditional _ _ => if inBlock then "" else Kind.tag "/if"
  | .list _ _ => Kind.tag "/list"
  | .capture _ => Kind.tag "/assign"
  | .definition _ _ => Kind.tag "/macro"
  | _ => ""

/-- Text as it stands in a template, with its opening brackets escaped. -/
def escapeText : List Char → List Char
  | [] => []
  | '\x7b' :: '[' :: cs => '\x7b' :: '[' :: '\x7b' :: ']' :: '\x7d' :: escapeText cs
  | c :: cs => c :: escapeText cs

/-- Whether the children belong to the markup of an element: those of an if block always do, those
of a text or of a tag without a body never, and all others in the full markup. -/
def showsChildren (kind : Kind) (full : Bool) : Bool :=
  match kind with
  | .ifBlock => true
  | .sequence | .conditional _ _ | .list _ _ | .capture _ | .definition _ _ => full
  | _ => false

mutual

/-- The text of a template that reads back as the tree; without the bodies unless `full`. -/
def markup (full : Bool) : Tree → String
  | ⟨kind, _, inBlock, children⟩ =>
    match kind with
    | .text t _ => String.ofList (escapeText t.toList)
    | _ =>
      kind.openTag ++ (if showsChildren kind full then markups full children else "") ++
        closeTag kind inBlock

/-- The markup of some trees, one after the other. -/
def markups (full : Bool) : List Tree → String
  | [] => ""
  | t :: ts => t.markup full ++ markups full ts

end

/-- The text that reads back as the element, without its body. -/
def canonical (t : Tree) : String := t.markup false

/-- The text that reads back as the element with its body. -/
def fullCanonical (t : Tree) : String := t.markup true

/-- The template text of an element; its canonical form when there is no such text, and its name
when that is empty too. -/
def source (t : Tree) : String :=
  let canonical := if t.canonical.isEmpty then t.kind.descriptor else t.canonical
  match t.location.slice? with
  | some s => if s.isEmpty then canonical else s
  | none => canonical

mutual

/-- Whether running the element always writes the same and changes nothing. -/
def isCacheable : Tree → Bool
  | ⟨kind, _, _, children⟩ =>
    match kind with
    | .text _ _ | .comment _ => true
    | .sequence => areCacheable children
    | _ => false

/-- Whether that holds of all of some trees. -/
def areCacheable : List Tree → Bool
  | [] => true
  | t :: ts => t.isCacheable && areCacheable ts

end

/-- Whether running the body always writes the same and changes nothing. -/
def hasCacheableBody (t : Tree) : Bool := areCacheable t.children

end Tree

end Stencil
