import Stencil.Environment

/-!
# Execution

What running a tree does. The walk keeps a work list of frames, each with the elements of one body
that are still to run. An element whose body runs at most once and in the same environment hands that
body back to the walk; one that repeats its body or changes the environment around it runs the body
itself, in a walk of its own. The first error ends the walk.

Bodies of macros and included templates are not part of the running tree. They are run through a
function for the next level of nesting, of which there are at most `maxNesting`.
-/

namespace Stencil

namespace Execution

open Stencil.Action

variable {σ : Type} [Recorder σ]

/-- The children an element hands back to the walk, if any. -/
abbrev Handed (t : Tree) := Option { body : List Tree // Tree.sizes body < t.size }

def ownBody (t : Tree) : Handed t := some ⟨t.children, t.sizes_children_lt⟩

/-- Whether a branch is taken; the else branch always is. -/
def isTaken : Option Expr → Run σ Bool
  | some condition => do return (← evaluate condition).isTruthy
  | none => return true

theorem mem_of_later {t : Tree} {ts : List Tree} (b : { b : Tree // b ∈ ts }) : b.1 ∈ t :: ts :=
  List.mem_cons_of_mem t b.2

/-- The first branch among some elements that is taken. -/
def takenBranch : (ts : List Tree) → Run σ (Option { b : Tree // b ∈ ts })
  | [] => return none
  | t :: ts =>
    let later : Run σ (Option { b : Tree // b ∈ t :: ts }) := do
      return (← takenBranch ts).map fun b => ⟨b.1, mem_of_later b⟩
    match t.kind with
    | .conditional _ condition => do
      if ← isTaken condition then return some ⟨t, List.mem_cons_self⟩ else later
    | _ => later

/-- Prints the value of the expression of an element. -/
def interpolate (t : Tree) (e : Expr) : Run σ Unit := do
  match ← evaluate e with
  | .null => throw (.type (.printsNull e.canonical) (.ofTree t))
  | v =>
    match v.stringify with
    | .ok text => write text
    | .error err => throw (.type (.notPrintable err) (.ofTree t))

/-- The bindings of a loop for one item. -/
def loopBindings (item : String) (value : Value) (index : Nat) (hasNext : Bool) : Bindings Value :=
  .ofList [(item, value), (item ++ "_index", .integer index), (item ++ "_has_next", .boolean hasNext)]

/-- Runs the body of a loop once for each of the items left, the first of which has the index. -/
def runItems (body : Run σ Unit) (item : String) : (index : Nat) → List Value → Run σ Unit
  | _, [] => return ()
  | index, v :: vs => do
    pushScope (loopBindings item v index !vs.isEmpty) false
    closing .scope body
    runItems body item (index + 1) vs

def runList (body : Run σ Unit) (source : Expr) (item : String) : Run σ Unit := do
  match ← evaluate source with
  | .sequence items => runItems body item 0 items
  | v => throw (.type (.notSequence v.typeName) (.ofExpr source))

/-- Gives a global the output of a body. -/
def runCapture (body : Run σ Unit) (target : String) : Run σ Unit := do
  beginCapture
  let captured ← closing .capture do
    body
    return (← current).captures.head?.getD ""
  modifyContext (·.setGlobal target (.string captured))

/-- Binds parameters to the values of arguments; a parameter without an argument is null. -/
def bindParameters : List String → List Expr → Bindings Value → Run σ (Bindings Value)
  | [], _, bindings => return bindings
  | p :: ps, [], bindings => bindParameters ps [] (bindings.insert p .null)
  | p :: ps, e :: es, bindings => do
    bindParameters ps es (bindings.insert p (← evaluate e))

/-- Calls a macro. The body sees its parameters and the globals, but not the locals of the caller. -/
def callMacro (callee : Tree → List Tree → Run σ Unit) (t : Tree) (name : String)
    (arguments : List Expr) : Run σ Unit := do
  match (← current).macros.get? name with
  | none => throw (.undefinedMacro name (.ofTree t))
  | some definition =>
    match definition.kind with
    | .definition _ parameters =>
      if arguments.length > parameters.length then
        throw (.type (.tooManyArguments name parameters.length arguments.length) (.ofTree t))
      else
        let bindings ← bindParameters parameters arguments {}
        enter t
        closing .level do
          pushScope bindings true
          closing .scope (callee t definition.children)
    | _ => throw (.type (.notMacro name) (.ofTree t))

/-- Loads a template and runs it here. -/
def includeTemplate (callee : Tree → List Tree → Run σ Unit) (t : Tree) (name : String) :
    Run σ Unit := do
  let template ← observe fun env =>
    match env.loader with
    | some loader => loader.load name
    | none => Loader.fail (.noRoot name)
  registerMacros template.tree
  beginInclusion name
  closing .inclusion (callee t [template.tree])

/-- Runs an inclusion. An error about the inclusion itself is placed at its element. -/
def runInclusion (callee : Tree → List Tree → Run σ Unit) (t : Tree) (path : Expr) :
    Run σ Unit := do
  match ← evaluate path with
  | .string name =>
    enter t
    closing .level (mapError (·.locatedAt t) (includeTemplate callee t name))
  | v => throw (.type (.pathNotString v.typeName) (.ofExpr path))

/-- Runs an element, without the children it hands back. `body` runs its children, and `callee` those
of an element elsewhere, one level of nesting deeper. -/
def perform (callee : Tree → List Tree → Run σ Unit) (body : Run σ Unit) (t : Tree) :
    Run σ (Handed t) :=
  match t.kind with
  | .sequence => return ownBody t
  | .text text _ => do write text; return none
  | .interpolation e => do interpolate t e; return none
  | .ifBlock => do
    match ← takenBranch t.children with
    | some ⟨branch, member⟩ =>
      return some ⟨branch.children, Tree.sizes_branch_lt member⟩
    | none => return none
  | .conditional _ condition => do
    if ← isTaken condition then return ownBody t else return none
  | .list source item => do runList body source item; return none
  | .assignment target value => do
    let v ← evaluate value
    modifyContext (·.setGlobal target v)
    return none
  | .capture target => do runCapture body target; return none
  | .definition _ _ => return none
  | .call name arguments => do callMacro callee t name arguments; return none
  | .inclusion path => do runInclusion callee t path; return none
  | .comment _ => return none

/-- The line of an element in a trace. -/
def traceLine (t : Tree) : String := t.kind.description ++ " [at " ++ t.location.describe ++ "]"

/-- Begins to run an element, which is listed from now on. -/
def beginElement (t : Tree) : Run σ Unit := do
  tell (.begins t)
  if t.kind.isTraced then change fun env => { env with running := traceLine t :: env.running }

/-- Ends to run an element, which is not listed any more. -/
def endElement (t : Tree) : Run σ Unit := do
  if t.kind.isTraced then change fun env => { env with running := env.running.tail }
  tell (.ends t)

/-- Runs an element, without the children it hands back, and lists it as running meanwhile. -/
def execute (callee : Tree → List Tree → Run σ Unit) (body : Run σ Unit) (t : Tree) :
    Run σ (Handed t) := do
  beginElement t
  let handed ← telling t (perform callee body t)
  endElement t
  return handed

/-- How much there is left to run in some frames. -/
def frameSize : List (List Tree) → Nat
  | [] => 0
  | f :: rest => 2 * Tree.sizes f + 1 + frameSize rest

/-- Runs the elements of some frames, the first frame first. What an element hands back becomes a
frame of its own, which runs before the rest. -/
def walk (callee : Tree → List Tree → Run σ Unit) (frames : List (List Tree)) : Run σ Unit :=
  match frames with
  | [] => return ()
  | [] :: rest => walk callee rest
  | (t :: siblings) :: rest => fun s =>
    match execute callee (walk callee [t.children]) t s with
    | .error e s => .error e s
    | .ok none s => walk callee (siblings :: rest) s
    | .ok (some body) s => walk callee (body.1 :: siblings :: rest) s
termination_by frameSize frames
decreasing_by
  · simp only [frameSize]; omega
  · have := t.sizes_children_lt
    have : t.size + Tree.sizes siblings = Tree.sizes (t :: siblings) := rfl
    simp only [frameSize]; omega
  · have := t.size_pos
    have : t.size + Tree.sizes siblings = Tree.sizes (t :: siblings) := rfl
    simp only [frameSize]; omega
  · have := body.2
    have : t.size + Tree.sizes siblings = Tree.sizes (t :: siblings) := rfl
    simp only [frameSize]; omega

/-- Runs some elements when `levels` more levels of nesting may be opened. -/
def runWithin : (levels : Nat) → List Tree → Run σ Unit
  | 0, ts => walk (fun site _ => throw (.tooDeep maxNesting (.ofTree site))) [ts]
  | levels + 1, ts => walk (fun _ => runWithin levels) [ts]

end Execution

namespace Environment

open Execution Recorder

variable {σ : Type} [Recorder σ]

def run (ts : List Tree) : Run σ Unit := fun s =>
  runWithin (maxNesting - (environment s).nesting) ts s

/-- Runs an element and everything below it that it hands back. -/
def visit (t : Tree) : Run σ Unit := run [t]

/-- Runs the children of an element, but not the element itself. -/
def visitChildren (t : Tree) : Run σ Unit := run t.children

/-- Runs a whole template: makes its macros callable, runs its elements, and completes the output. An
error is handed on with the elements that were running, which are then forgotten. An abandoned run is
left as it is. -/
def process (t : Tree) : Run σ Unit := fun s =>
  match (do Action.registerMacros t; visit t : Run σ Unit) s with
  | .ok _ s => Action.flush s
  | .error e s =>
    if e.abandons then .error e s
    else
      let env := environment s
      .error (e.attachTrace env.running) (put { env with running := [] } s)

end Environment

end Stencil
