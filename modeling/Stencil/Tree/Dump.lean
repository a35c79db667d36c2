import Stencil.Tree

/-!
# Dumps

An indented listing of a tree, made of nothing but the names and parameters of its elements.
-/

namespace Stencil.Tree

/-- The blanks before the lines of an element at a depth. -/
def indent (depth : Nat) : String := String.ofList (List.replicate (2 * depth) ' ')

/-- The line of a parameter; an absent one has none. -/
def dumpParameter (depth : Nat) (p : Parameter) : String :=
  match p.value with
  | .absent => ""
  | value => indent depth ++ "  - " ++ p.role.name ++ ": " ++ value.display ++ "\n"

/-- The line of an element; that of a text shows the text. -/
def dumpKind (depth : Nat) (kind : Kind) : String :=
  match kind with
  | .text t _ => indent depth ++ kind.descriptor ++ " " ++ Text.escaped t ++ "\n"
  | _ => indent depth ++ kind.descriptor ++ "\n"

mutual

/-- The lines of an element and of everything below it. -/
def dumpAt (depth : Nat) : Tree → String
  | ⟨kind, _, _, children⟩ =>
    dumpKind depth kind ++ String.join (kind.parameters.map (dumpParameter depth)) ++
      dumpsAt (depth + 1) children

/-- The lines of some trees, one after the other. -/
def dumpsAt (depth : Nat) : List Tree → String
  | [] => ""
  | t :: ts => t.dumpAt depth ++ dumpsAt depth ts

end

def dump (t : Tree) : String := t.dumpAt 0

end Stencil.Tree
