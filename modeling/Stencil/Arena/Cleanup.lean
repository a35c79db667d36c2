import Stencil.Arena.Walk
import Stencil.Arena.Edit

/-!
# Cleanup

What is done once to a tree after it has been read: comments and empty elements are dropped,
sequences and if blocks with a single child give way to that child, and, when whitespace is stripped,
the blanks go that only pad lines holding directives.
-/

namespace Stencil

namespace Arena

/-- Whether a neighbour writes nothing, so that blank text beside it can go. Without a neighbour this
is so at the top of the template. -/
def isQuiet (a : Arena) (atTop : Bool) : Option ElementId → Bool
  | some sibling => (a.get sibling).kind.isSilent
  | none => atTop

/-- Whether an element stands at the top of its template. -/
def isAtTop (a : Arena) (id : ElementId) : Bool :=
  match (a.get id).parent with
  | some parent => (a.get parent).parent.isNone
  | none => true

/-- Whether a text can be dropped: an empty one always, a blank one when whitespace is stripped and
both neighbours are quiet. -/
def isDroppedText (a : Arena) (id : ElementId) (text : List Char) (strip : Bool) :
    Except OutOfRange Bool := do
  if text.isEmpty then return true
  if !strip || !decide (Text.AllBlank text) then return false
  let atTop := a.isAtTop id
  let previous ← a.previousSibling? id
  return a.isQuiet atTop previous && a.isQuiet atTop (a.nextSibling? id)

/-- Whether cleanup drops an element. -/
def isIgnorable (a : Arena) (id : ElementId) (strip : Bool) : Except OutOfRange Bool :=
  match (a.get id).kind with
  | .text t _ => a.isDroppedText id t.toList strip
  | .sequence => .ok (a.children id).isEmpty
  | .comment _ => .ok true
  | _ => .ok false

/-- Whether an element is a text that goes when whitespace is stripped. -/
def goesWhenStripping (a : Arena) (id : ElementId) : Except OutOfRange Bool :=
  match (a.get id).kind with
  | .text _ _ => a.isIgnorable id true
  | _ => .ok false

/-- Whether an element keeps the blanks that begin a line of the text after it. -/
def heedsOpening (a : Arena) (id : ElementId) : Except OutOfRange Bool := do
  return !(← a.goesWhenStripping id) && (a.get id).kind.heedsOpening

/-- Whether an element keeps the blanks that end a line of the text before it. -/
def heedsTrailing (a : Arena) (id : ElementId) : Except OutOfRange Bool := do
  return !(← a.goesWhenStripping id) && (a.get id).kind.heedsTrailing

/-- Whether, going back from a leaf, one that ends on `line` keeps the blanks at its end. -/
def heededBefore (a : Arena) (line : Int) : (steps : Nat) → Option ElementId →
    Except OutOfRange Bool
  | 0, _ => .ok false
  | _, none => .ok false
  | steps + 1, some id => do
    if (a.get id).location.last.line ≠ line then return false
    if ← a.heedsOpening id then return true
    a.heededBefore line steps (← a.previousTerminal? id)

/-- Whether, going on from a leaf, one that begins on `line` keeps the blanks at its beginning. -/
def heededAfter (a : Arena) (line : Int) : (steps : Nat) → Option ElementId →
    Except OutOfRange Bool
  | 0, _ => .ok false
  | _, none => .ok false
  | steps + 1, some id => do
    if (a.get id).location.first.line ≠ line then return false
    if ← a.heedsTrailing id then return true
    a.heededAfter line steps (a.nextTerminal? id)

/-- The number of characters to take off the beginning of a text: its first line with the line feed,
when that line is blank and nothing before it on the line keeps blanks. -/
def openingStrip (a : Arena) (id : ElementId) (text : List Char) : Except OutOfRange Nat := do
  match Kind.firstLine? text with
  | none => return 0
  | some line =>
    if !decide (Text.AllBlank line) then return 0
    let before ← a.previousTerminal? id
    if ← a.heededBefore (a.get id).location.first.line (a.size + 1) before then return 0
    return line.length + 1

/-- The number of characters to take off the end of a text: what follows its last line feed, when
that is blank and nothing after it on the line keeps blanks. A text without a line feed counts only
if it begins its line. -/
def trailingStrip (a : Arena) (id : ElementId) (text : List Char) : Except OutOfRange Nat := do
  let location := (a.get id).location
  let line? := match Kind.lastLine? text with
    | some line => some line
    | none => if location.first.column = 1 then some text else none
  match line? with
  | none => return 0
  | some line =>
    if !decide (Text.AllBlank line) then return 0
    if ← a.heededAfter location.last.line (a.size + 1) (a.nextTerminal? id) then return 0
    return line.length

/-- A text without `opening` characters at its beginning and `trailing` at its end. -/
def trimmedText (text : List Char) (opening trailing : Nat) : List Char :=
  (text.take (text.length - trailing)).drop opening

/-- The location of a text after trimming. -/
def trimmedLocation (l : Location) (opening trailing : Nat) : Location :=
  let l := if opening > 0 then { l with first := ⟨l.first.line + 1, 1⟩ } else l
  if trailing > 0 then { l with last := ⟨l.last.line, 0⟩ } else l

end Arena

namespace Edit

/-- Takes the blanks off a text that only pad lines holding directives. -/
def trimText (id : ElementId) (text : List Char) : Edit Unit := do
  let opening ← observe (·.openingStrip id text)
  let trailing ← observe (·.trailingStrip id text)
  modify fun a => a.update id fun e =>
    { e with
      kind := .text (String.ofList (Arena.trimmedText text opening trailing)) true
      location := Arena.trimmedLocation e.location opening trailing }

/-- Drops the children that can go, one at a time, since each decides about its neighbours. At most
`steps` children are left to look at. -/
def dropIgnorable (strip : Bool) (id : ElementId) : (steps : Nat) → (index : Nat) → Edit Unit
  | 0, _ => pure ()
  | steps + 1, index => do
    if index < (← get).childCount id then
      let child ← observe (·.child id index)
      if ← observe (·.isIgnorable child strip) then
        let _ ← removeChild id index
        dropIgnorable strip id steps index
      else dropIgnorable strip id steps (index + 1)

/-- The element that takes the place of one whose children have been cleaned up. -/
def simplify (strip : Bool) (id : ElementId) : Edit ElementId := do
  let a ← get
  match (a.get id).kind with
  | .sequence => if a.childCount id = 1 then observe (·.child id 0) else return id
  | .ifBlock =>
    if a.childCount id = 1 then
      let branch ← observe (·.child id 0)
      modify (·.update branch fun e => { e with location := (a.get id).location })
      return branch
    else return id
  | .text t trimmed =>
    if strip && !trimmed then trimText id t.toList
    return id
  | _ => return id

/-- Cleans up the children at some indices and links what takes their places. -/
def cleanEach (clean : ElementId → Edit ElementId) (id : ElementId) : List Nat → Edit Unit
  | [] => pure ()
  | index :: rest => do
    let child ← observe (·.child id index)
    let replacement ← clean child
    if replacement ≠ child then modify (·.putChild id index replacement)
    modify (·.link replacement id index)
    cleanEach clean id rest

/-- Cleans up an element down to a depth. -/
def cleanWithin (strip : Bool) : (depth : Nat) → ElementId → Edit ElementId
  | 0, id => simplify strip id
  | depth + 1, id => do
    let count := (← get).childCount id
    if count > 0 then
      cleanEach (cleanWithin strip depth) id (List.range count)
      dropIgnorable strip id count 0
      modify fun a => a.setBuffer id ((a.get id).buffer.map ChildBuffer.shrink)
    simplify strip id

/-- Cleans up an element and everything below it, and hands back the element that takes its place.
To link that element to the parent is up to the caller. -/
def clean (strip : Bool) (id : ElementId) : Edit ElementId := do
  cleanWithin strip (← get).size id

end Edit

end Stencil
