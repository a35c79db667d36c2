import Stencil.Sink
import Stencil.Loader
import Stencil.Expr.Evaluation

/-!
# Environments

Everything that changes while templates run: the output, the context, the macros, the captures, the
running elements, and how deeply calls and inclusions are nested.

A run goes on in a state that holds an environment. Whoever watches a run keeps a record of its
events in that state; an environment by itself keeps none.
-/

namespace Stencil

/-- The state of a run. -/
structure Environment where
  sink : Sink
  context : Context
  /-- The definitions of the macros that can be called. -/
  macros : Bindings Tree := {}
  loader : Option Loader := none
  /-- The texts of the open captures, innermost first. -/
  captures : List String := []
  /-- The running lists, calls, inclusions and captures, innermost first. An error leaves the entries
  of the elements it went through, so that they show where it arose. -/
  running : List String := []
  /-- The number of running calls and inclusions. -/
  nesting : Nat := 0
deriving Inhabited

/-- What a run opens around a body and closes after it. -/
inductive Enclosure
  | level
  | scope
  | capture
  | inclusion
deriving DecidableEq, Repr, Inhabited

/-- Closes the innermost enclosure of a kind; if there is none, nothing changes. -/
def Enclosure.close : Enclosure → Environment → Environment
  | level, env => { env with nesting := env.nesting - 1 }
  | scope, env => { env with context := env.context.popScope }
  | capture, env => { env with captures := env.captures.tail }
  | inclusion, env => { env with loader := env.loader.map (·.endInclusion) }

/-- What happens in a run. -/
inductive Event
  /-- An element is accepted. -/
  | begins (t : Tree)
  /-- An element has run, but for the children it hands back. -/
  | ends (t : Tree)
  | fails (t : Tree) (e : TemplateError)
  /-- An enclosure is about to be closed. -/
  | closes (e : Enclosure)
deriving Inhabited

/-- States of a run: an environment, and what is kept of the events so far. -/
class Recorder (σ : Type) where
  environment : σ → Environment
  put : Environment → σ → σ
  note : Event → σ → σ

instance : Recorder Environment := ⟨id, fun env _ => env, fun _ env => env⟩

/-- A step of a run: it changes the state, and fails or has a result. -/
abbrev Run (σ : Type) := EStateM TemplateError σ

/-- A step of a run that nobody watches. -/
abbrev Action := Run Environment

namespace Action

open Recorder

variable {σ α : Type} [Recorder σ]

def current : Run σ Environment := fun s => .ok (environment s) s

/-- What can be read off the environment. -/
def observe (f : Environment → Except TemplateError α) : Run σ α := fun s =>
  match f (environment s) with
  | .ok x => .ok x s
  | .error e => .error e s

def change (f : Environment → Environment) : Run σ Unit := fun s => .ok () (put (f (environment s)) s)

def tell (e : Event) : Run σ Unit := fun s => .ok () (note e s)

/-- The state after the innermost enclosure of a kind is closed. -/
def closed (e : Enclosure) (s : σ) : σ :=
  let s := note (.closes e) s
  put (e.close (environment s)) s

/-- Runs an action and then closes an enclosure that was opened before, whether the action failed or
not. An abandoned action closes nothing. -/
def closing (e : Enclosure) (act : Run σ α) : Run σ α := fun s =>
  match act s with
  | .ok x s => .ok x (closed e s)
  | .error err s => .error err (if err.abandons then s else closed e s)

/-- Tells that an element has failed if the action fails. -/
def telling (t : Tree) (act : Run σ α) : Run σ α := fun s =>
  match act s with
  | .ok x s => .ok x s
  | .error e s => .error e (note (.fails t e) s)

/-- Changes the error of an action that fails. -/
def mapError (f : TemplateError → TemplateError) (act : Run σ α) : Run σ α := fun s =>
  match act s with
  | .ok x s => .ok x s
  | .error e s => .error (f e) s

def modifyContext (f : Context → Context) : Run σ Unit :=
  change fun env => { env with context := f env.context }

/-- Writes a text to the innermost capture, or to the output when there is none. -/
def write (text : String) : Run σ Unit := fun s =>
  let env := environment s
  match env.captures with
  | captured :: outer => .ok () (put { env with captures := (captured ++ text) :: outer } s)
  | [] =>
    match env.sink.write text with
    | (.ok _, sink) => .ok () (put { env with sink } s)
    | (.error fault, sink) => .error (.io fault) (put { env with sink } s)

def flush : Run σ Unit := fun s =>
  let env := environment s
  match env.sink.flush with
  | (.ok _, sink) => .ok () (put { env with sink } s)
  | (.error fault, sink) => .error (.io fault) (put { env with sink } s)

def evaluate (e : Expr) : Run σ Value :=
  observe fun env => e.evaluateWithin (maxNesting - env.nesting) env.context

/-- Opens a level of nesting at an element. -/
def enter (site : Tree) : Run σ Unit := do
  if (← current).nesting ≥ maxNesting then throw (.tooDeep maxNesting (.ofTree site))
  else change fun env => { env with nesting := env.nesting + 1 }

def pushScope (bindings : Bindings Value) (isolated : Bool) : Run σ Unit :=
  modifyContext (·.pushScope bindings isolated)

def beginCapture : Run σ Unit := change fun env => { env with captures := "" :: env.captures }

def beginInclusion (name : String) : Run σ Unit :=
  change fun env => { env with loader := env.loader.map (·.beginInclusion name) }

/-- Some macros with those defined anywhere in a tree; of two definitions of a name the later one
counts. -/
def withMacrosOf (t : Tree) (macros : Bindings Tree) : Bindings Tree :=
  t.preorder.foldl (fun macros element =>
    match element.kind with
    | .definition name _ => macros.insert name element
    | _ => macros) macros

/-- Makes the macros defined anywhere in a tree callable. -/
def registerMacros (t : Tree) : Run σ Unit :=
  change fun env => { env with macros := withMacrosOf t env.macros }

end Action

end Stencil
