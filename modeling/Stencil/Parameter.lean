import Stencil.Element

/-!
# Parameters

Every element and every expression has a fixed number of parameters, which walkers can ask for by
index. A parameter that is left out keeps its index and is absent.
-/

namespace Stencil

/-- An index beyond what there is. -/
inductive OutOfRange
  | child (index count : Nat)
  | parameter (index count : Nat)
deriving DecidableEq, Repr, Inhabited

def OutOfRange.message : OutOfRange → String
  | child index count => s!"child index {index} out of range (child count is {count})"
  | parameter index count => s!"parameter index {index} out of range (parameter count is {count})"

/-- What a parameter means. -/
inductive Role
  | leftOperand
  | rightOperand
  | enclosedOperand
  | condition
  | subtype
  | content
  | listSource
  | loopVariable
  | assignmentTarget
  | assignmentSource
  | macroName
  | parameterName
  | calleeName
  | argument
  | templateName
deriving DecidableEq, Repr, Inhabited

def Role.name : Role → String
  | leftOperand => "left-hand operand"
  | rightOperand => "right-hand operand"
  | enclosedOperand => "enclosed operand"
  | condition => "condition"
  | subtype => "AST-node subtype"
  | content => "content"
  | listSource => "list source"
  | loopVariable => "target loop variable"
  | assignmentTarget => "assignment target"
  | assignmentSource => "assignment source"
  | macroName => "macro name"
  | parameterName => "parameter name"
  | calleeName => "callee name"
  | argument => "argument"
  | templateName => "template name"

inductive Parameter.Value
  | absent
  | expr (e : Expr)
  | string (s : String)
  | number (n : Nat)
deriving DecidableEq, Repr, Inhabited

/-- A parameter: what it means and what it is. -/
structure Parameter where
  role : Role
  value : Parameter.Value
deriving DecidableEq, Repr, Inhabited

namespace Parameter.Value

def display : Value → String
  | absent => "null"
  | expr e => e.canonical
  | string s => Text.escaped s
  | number n => toString n

/-- A value with the name of its form. -/
def debug : Value → String
  | absent => "Absent"
  | expr e => "Node(" ++ e.canonical ++ ")"
  | string s => "Str(" ++ Text.escaped s ++ ")"
  | number n => "Int(" ++ toString n ++ ")"

end Parameter.Value

def Expr.parameters : Expr → List Parameter
  | string _ _ | integer _ _ | boolean _ _ | null _ | var _ _ => []
  | dot _ target key => [⟨.leftOperand, .expr target⟩, ⟨.rightOperand, .string key⟩]
  | binary _ _ left right => [⟨.leftOperand, .expr left⟩, ⟨.rightOperand, .expr right⟩]
  | not _ operand => [⟨.rightOperand, .expr operand⟩]
  | group _ inner => [⟨.enclosedOperand, .expr inner⟩]
  | eval _ target => [⟨.leftOperand, .expr target⟩]

def Kind.parameters : Kind → List Parameter
  | sequence | text _ _ | ifBlock => []
  | interpolation e => [⟨.content, .expr e⟩]
  | conditional branch c =>
    [⟨.condition, (c.map .expr).getD .absent⟩, ⟨.subtype, .number branch.code⟩]
  | list source item => [⟨.listSource, .expr source⟩, ⟨.loopVariable, .string item⟩]
  | assignment target value =>
    [⟨.assignmentTarget, .string target⟩, ⟨.assignmentSource, .expr value⟩]
  | capture target => [⟨.assignmentTarget, .string target⟩]
  | definition name parameters =>
    ⟨.macroName, .string name⟩ :: parameters.map fun p => ⟨.parameterName, .string p⟩
  | call name arguments =>
    ⟨.calleeName, .string name⟩ :: arguments.map fun a => ⟨.argument, .expr a⟩
  | inclusion path => [⟨.templateName, .expr path⟩]
  | comment t => [⟨.content, .string t⟩]

def Parameter.at (ps : List Parameter) (index : Nat) : Except OutOfRange Parameter :=
  match ps[index]? with
  | some p => .ok p
  | none => .error (.parameter index ps.length)

end Stencil
