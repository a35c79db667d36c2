import Stencil.Proofs.Execution.Recursion
import Mathlib.Logic.Function.Iterate

/-! # Running step by step

A machine that runs templates one elementary action at a time. It keeps what is still to be done on a stack
and takes up bodies, included templates and evaluated texts as it comes to them. Neither fuel nor a measure
makes it stop: that it does is a theorem. -/

namespace Stencil.Execution

open Stencil.Action

/-! ### Commands -/

/-- A level of nesting. Calls and inclusions are counted in the environment, evaluated texts along with the
expression. -/
inductive Level
  | element
  | fragment (depth : Nat)

namespace Level

/-- How many levels are counted as open before this one. -/
def count : Level → Environment → Nat
  | element, env => env.nesting
  | fragment depth, _ => depth

def enter : Level → Environment → Environment
  | element, env => { env with nesting := env.nesting + 1 }
  | fragment _, env => env

def leave : Level → Environment → Environment
  | element, env => Enclosure.level.close env
  | fragment _, env => env

end Level

/-- What is done after something else, whether that fails or not. -/
inductive Guard
  /-- An enclosure is closed. -/
  | closes (e : Enclosure)
  /-- Errors about an inclusion are placed at an element. -/
  | places (t : Tree)
  /-- Errors are handed on with the elements that were running. -/
  | traces

namespace Guard

def leave : Guard → Environment → Environment
  | closes e, env => e.close env
  | places _, env | traces, env => env

def fail : Guard → TemplateError → Environment → TemplateError × Environment
  | closes e, err, env => (err, if err.abandons then env else e.close env)
  | places t, err, env => (err.locatedAt t, env)
  | traces, err, env => if err.abandons then (err, env)
    else (err.attachTrace env.running, { env with running := [] })

end Guard

/-- What the machine can be told to do. -/
inductive Command : Type → Type 1
  | ret {α : Type} (x : α) : Command α
  | raise {α : Type} (e : TemplateError) : Command α
  | act {α : Type} (a : Action α) : Command α
  | bind {α β : Type} (c : Command α) (next : α → Command β) : Command β
  | guarded {α : Type} (g : Guard) (c : Command α) : Command α
  /-- Opens a level for a command, or fails at a site if there are too many. -/
  | nested {α : Type} (l : Level) (site : ErrorSite) (c : Command α) : Command α
  | body (ts : List Tree) : Command Unit
  /-- Finds the value of an expression when so many levels are open. -/
  | value (depth : Nat) (e : Expr) : Command Value

instance : Monad Command where
  pure := .ret
  bind := .bind

namespace Command

def lift {α : Type} : Except TemplateError α → Command α
  | .ok x => ret x
  | .error e => raise e

/-- The value of a text that the given expression evaluates. -/
def evaluateText (depth : Nat) (site : Expr) (code : String) : Command Value :=
  nested (.fragment depth) (.ofExpr site) <|
    match Expr.parse code with
    | .error e => raise (.eval e (.ofExpr site))
    | .ok fragment => value (depth + 1) fragment

/-- The value of an expression, from those of its parts. -/
def ofExpr (depth : Nat) : Expr → Command Value
  | .string _ s => return .string s
  | .integer loc n =>
    match Value.ofInt n with
    | .ok v => return v
    | .error err => raise (.type (.literal err) (.ofExpr (.integer loc n)))
  | .boolean _ b => return .boolean b
  | .null _ => return .null
  | .var loc name => act (observe fun env =>
    match env.context.lookup name with
    | some v => .ok v
    | none => .error (.undefinedVariable name (.ofExpr (.var loc name))))
  | .dot loc target key => do lift ((Expr.dot loc target key).select key (← value depth target))
  | .binary loc op left right => do
    let a ← value depth left
    match op with
    | .or => if a.isTruthy then return .boolean true else return .boolean (← value depth right).isTruthy
    | .and => if a.isTruthy then return .boolean (← value depth right).isTruthy else return .boolean false
    | .equal => return .boolean (a.same (← value depth right))
    | .notEqual => return .boolean (!a.same (← value depth right))
    | .add => lift ((Expr.binary loc .add left right).add a (← value depth right))
  | .not _ operand => return .boolean (!(← value depth operand).isTruthy)
  | .group _ inner => value depth inner
  | .eval loc target => do
    match ← value depth target with
    | .string code => evaluateText depth (.eval loc target) code
    | v => raise (.type (.notCode v.typeName) (.ofExpr (.eval loc target)))

def evaluate (e : Expr) : Command Value := do
  let env ← act current
  value env.nesting e

def isTaken : Option Expr → Command Bool
  | some condition => return (← evaluate condition).isTruthy
  | none => return true

def takenBranch : (ts : List Tree) → Command (Option { b : Tree // b ∈ ts })
  | [] => return none
  | t :: ts =>
    let later : Command (Option { b : Tree // b ∈ t :: ts }) := do
      return (← takenBranch ts).map fun b => ⟨b.1, mem_of_later b⟩
    match t.kind with
    | .conditional _ condition => do
      if ← isTaken condition then return some ⟨t, List.mem_cons_self⟩ else later
    | _ => later

def interpolate (t : Tree) (e : Expr) : Command Unit := do
  match ← evaluate e with
  | .null => raise (.type (.printsNull e.canonical) (.ofTree t))
  | v =>
    match v.stringify with
    | .ok text => act (write text)
    | .error err => raise (.type (.notPrintable err) (.ofTree t))

def runItems (ts : List Tree) (item : String) : (index : Nat) → List Value → Command Unit
  | _, [] => return ()
  | index, v :: vs => do
    act (pushScope (loopBindings item v index !vs.isEmpty) false)
    guarded (.closes .scope) (body ts)
    runItems ts item (index + 1) vs

def runList (ts : List Tree) (source : Expr) (item : String) : Command Unit := do
  match ← evaluate source with
  | .sequence items => runItems ts item 0 items
  | v => raise (.type (.notSequence v.typeName) (.ofExpr source))

def runCapture (ts : List Tree) (target : String) : Command Unit := do
  act beginCapture
  let captured ← guarded (.closes .capture) do
    body ts
    return (← act current).captures.head?.getD ""
  act (modifyContext (·.setGlobal target (.string captured)))

def bindParameters : List String → List Expr → Bindings Value → Command (Bindings Value)
  | [], _, bindings => return bindings
  | p :: ps, [], bindings => bindParameters ps [] (bindings.insert p .null)
  | p :: ps, e :: es, bindings => do
    bindParameters ps es (bindings.insert p (← evaluate e))

def callMacro (t : Tree) (name : String) (arguments : List Expr) : Command Unit := do
  match (← act current).macros.get? name with
  | none => raise (.undefinedMacro name (.ofTree t))
  | some definition =>
    match definition.kind with
    | .definition _ parameters =>
      if arguments.length > parameters.length then
        raise (.type (.tooManyArguments name parameters.length arguments.length) (.ofTree t))
      else
        let bindings ← bindParameters parameters arguments {}
        nested .element (.ofTree t) do
          act (pushScope bindings true)
          guarded (.closes .scope) (body definition.children)
    | _ => raise (.type (.notMacro name) (.ofTree t))

def includeTemplate (name : String) : Command Unit := do
  let template ← act <| observe fun env =>
    match env.loader with
    | some loader => loader.load name
    | none => Loader.fail (.noRoot name)
  act (registerMacros template.tree)
  act (beginInclusion name)
  guarded (.closes .inclusion) (body [template.tree])

def runInclusion (t : Tree) (path : Expr) : Command Unit := do
  match ← evaluate path with
  | .string name => nested .element (.ofTree t) (guarded (.places t) (includeTemplate name))
  | v => raise (.type (.pathNotString v.typeName) (.ofExpr path))

/-- What an element does itself. -/
def perform (t : Tree) : Command (Handed t) :=
  match t.kind with
  | .sequence => return ownBody t
  | .text text _ => do act (write text); return none
  | .interpolation e => do interpolate t e; return none
  | .ifBlock => do
    match ← takenBranch t.children with
    | some ⟨branch, member⟩ =>
      return some ⟨branch.children, Tree.sizes_branch_lt member⟩
    | none => return none
  | .conditional _ condition => do
    if ← isTaken condition then return ownBody t else return none
  | .list source item => do runList t.children source item; return none
  | .assignment target e => do
    let v ← evaluate e
    act (modifyContext (·.setGlobal target v))
    return none
  | .capture target => do runCapture t.children target; return none
  | .definition _ _ => return none
  | .call name arguments => do callMacro t name arguments; return none
  | .inclusion path => do runInclusion t path; return none
  | .comment _ => return none

/-- An element with the children it hands back. -/
def ofTree (t : Tree) : Command Unit := do
  act (beginElement t)
  let handed ← perform t
  act (endElement t)
  match handed with
  | some children => body children.1
  | none => return ()

def process (t : Tree) : Command Unit := do
  guarded .traces do
    act (registerMacros t)
    body [t]
  act flush

end Command

/-! ### The machine -/

/-- What is to be done with the result of a command. -/
inductive Stack : Type → Type 1
  | empty : Stack Unit
  | next {α β : Type} (f : α → Command β) (rest : Stack β) : Stack α
  | guard {α : Type} (g : Guard) (rest : Stack α) : Stack α
  | level {α : Type} (l : Level) (rest : Stack α) : Stack α

/-- A moment of a run. -/
inductive Machine : Type 1
  | running {α : Type} (c : Command α) (stack : Stack α) (env : Environment)
  /-- An error has been raised and is handed down the stack. -/
  | failing {α : Type} (e : TemplateError) (stack : Stack α) (env : Environment)
  | done (r : EStateM.Result TemplateError Environment Unit)

/-- Goes on with a result. -/
def Stack.resume {α : Type} : Stack α → α → Environment → Machine
  | empty, x, env => .done (.ok x env)
  | next f rest, x, env => .running (f x) rest env
  | guard g rest, x, env => .running (.ret x) rest (g.leave env)
  | level l rest, x, env => .running (.ret x) rest (l.leave env)

/-- Hands an error down by one entry. -/
def Stack.unwind {α : Type} : Stack α → TemplateError → Environment → Machine
  | empty, e, env => .done (.error e env)
  | next _ rest, e, env => .failing e rest env
  | guard g rest, e, env => .failing (g.fail e env).1 rest (g.fail e env).2
  | level l rest, e, env => .failing e rest (if e.abandons then env else l.leave env)

def Command.step {α : Type} : Command α → Stack α → Environment → Machine
  | ret x, stack, env => stack.resume x env
  | raise e, stack, env => .failing e stack env
  | act a, stack, env =>
    match a env with
    | .ok x env => .running (ret x) stack env
    | .error e env => .failing e stack env
  | bind c f, stack, env => .running c (.next f stack) env
  | guarded g c, stack, env => .running c (.guard g stack) env
  | nested l site c, stack, env =>
    if l.count env ≥ maxNesting then .failing (.tooDeep maxNesting site) stack env
    else .running c (.level l stack) (l.enter env)
  | body [], stack, env => .running (ret ()) stack env
  | body (t :: ts), stack, env => .running (do ofTree t; body ts) stack env
  | value depth e, stack, env => .running (ofExpr depth e) stack env

namespace Machine

def step : Machine → Machine
  | running c stack env => c.step stack env
  | failing e stack env => stack.unwind e env
  | done r => done r

def start (t : Tree) (env : Environment) : Machine := running (.process t) .empty env

end Machine

/-- The number of calls, inclusions and evaluated texts that are running. -/
def Stack.levels {α : Type} : Stack α → Nat
  | empty => 0
  | next _ rest | guard _ rest => rest.levels
  | level _ rest => rest.levels + 1

namespace Machine

def levels : Machine → Nat
  | running _ stack _ | failing _ stack _ => stack.levels
  | done _ => 0

/-- A level is about to be opened. -/
def Opens : Machine → Prop
  | running (.nested _ _ _) _ _ => True
  | _ => False

/-- A level is about to be opened when so many are open. -/
def OpensAt (limit : Nat) (m : Machine) : Prop := m.Opens ∧ m.levels = limit

def HasFailed : Machine → Prop
  | failing _ _ _ | done (.error _ _) => True
  | _ => False

end Machine

end Stencil.Execution
