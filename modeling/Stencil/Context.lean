import Stencil.Bindings
import Stencil.Value

/-!
# Contexts

Where names get their values while a template runs: the local scopes from the innermost outwards,
then the globals that were assigned, then the data.
-/

namespace Stencil

/-- Some local bindings. Names that an isolated scope does not bind are not looked for in the scopes
around it. -/
structure Scope where
  bindings : Bindings Value
  isolated : Bool
deriving Repr, Inhabited

/-- The data, the globals and the local scopes, innermost first. -/
structure Context where
  root : Bindings Value
  globals : Bindings Value := {}
  scopes : List Scope := []
deriving Repr, Inhabited

namespace Context

/-- A context over some data, which must be a hash. -/
def ofValue : Value → Except ValueError Context
  | .hash entries => .ok { root := ⟨entries⟩ }
  | v => .error (.rootNotHash v.typeName)

/-- The value that some scopes give a name. -/
def lookupLocal (name : String) : List Scope → Option Value
  | [] => none
  | s :: outer =>
    match s.bindings.get? name with
    | some v => some v
    | none => if s.isolated then none else lookupLocal name outer

def lookup (c : Context) (name : String) : Option Value :=
  match lookupLocal name c.scopes with
  | some v => some v
  | none =>
    match c.globals.get? name with
    | some v => some v
    | none => c.root.get? name

def setGlobal (c : Context) (name : String) (value : Value) : Context :=
  { c with globals := c.globals.insert name value }

def pushScope (c : Context) (bindings : Bindings Value) (isolated : Bool) : Context :=
  { c with scopes := ⟨bindings, isolated⟩ :: c.scopes }

/-- Closes the innermost scope, if there is one. -/
def popScope (c : Context) : Context := { c with scopes := c.scopes.tail }

def depth (c : Context) : Nat := c.scopes.length

end Context

end Stencil
