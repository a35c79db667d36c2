import Stencil.Tree.Dump

/-! # Parameters asked for one by one

A walker asks an element how many parameters it has, and then for the role and the value at every index. It
is given what is listed, and refused only at indices past the last one. A dump that is made in this way is
never refused anything. -/

namespace Stencil

/-! ### Indices -/

namespace Kind

/-- The number of parameters. -/
def parameterCount : Kind → Nat
  | sequence | text _ _ | ifBlock => 0
  | interpolation _ | capture _ | inclusion _ | comment _ => 1
  | conditional _ _ | list _ _ | assignment _ _ => 2
  | definition _ parameters => 1 + parameters.length
  | call _ arguments => 1 + arguments.length

/-- The value of the parameter at an index. -/
def valueAt : Kind → Nat → Except OutOfRange Parameter.Value
  | interpolation e, 0 => .ok (.expr e)
  | conditional _ (some c), 0 => .ok (.expr c)
  | conditional _ none, 0 => .ok .absent
  | conditional branch _, 1 => .ok (.number branch.code)
  | list source _, 0 => .ok (.expr source)
  | list _ item, 1 => .ok (.string item)
  | assignment target _, 0 => .ok (.string target)
  | assignment _ value, 1 => .ok (.expr value)
  | capture target, 0 => .ok (.string target)
  | definition name _, 0 => .ok (.string name)
  | definition name parameters, index + 1 =>
    if h : index < parameters.length then .ok (.string parameters[index])
    else .error (.parameter (index + 1) (definition name parameters).parameterCount)
  | call name _, 0 => .ok (.string name)
  | call name arguments, index + 1 =>
    if h : index < arguments.length then .ok (.expr arguments[index])
    else .error (.parameter (index + 1) (call name arguments).parameterCount)
  | inclusion path, 0 => .ok (.expr path)
  | comment t, 0 => .ok (.string t)
  | kind, index => .error (.parameter index kind.parameterCount)

/-- What the parameter at an index means, whether it is there or not. -/
def role? : Kind → Nat → Option Role
  | interpolation _, _ => some .content
  | conditional _ _, 0 => some .condition
  | conditional _ _, _ => some .subtype
  | list _ _, 0 => some .listSource
  | list _ _, _ => some .loopVariable
  | assignment _ _, 0 | capture _, _ => some .assignmentTarget
  | assignment _ _, _ => some .assignmentSource
  | definition _ _, 0 => some .macroName
  | definition _ _, _ => some .parameterName
  | call _ _, 0 => some .calleeName
  | call _ _, _ => some .argument
  | inclusion _, _ => some .templateName
  | comment _, _ => some .content
  | sequence, _ | text _ _, _ | ifBlock, _ => none

/-- The role of the parameter at an index. -/
def roleAt (kind : Kind) (index : Nat) : Except OutOfRange (Option Role) :=
  if index ≥ kind.parameterCount then .error (.parameter index kind.parameterCount)
    else .ok (kind.role? index)

variable (kind : Kind) (index : Nat)

theorem parameterCount_eq : kind.parameterCount = kind.parameters.length := by
  cases kind <;> simp [parameterCount, parameters, Nat.add_comm]

/-- Parameters have the values that are listed. -/
theorem valueAt_eq : kind.valueAt index = (Parameter.at kind.parameters index).map (·.value) := by
  cases kind with
  | sequence | text | ifBlock => rfl
  | interpolation | capture | inclusion | comment => cases index <;> rfl
  | conditional _ c => rcases index with _ | _ | index <;> cases c <;> rfl
  | list | assignment => rcases index with _ | _ | index <;> rfl
  | definition name parameters =>
    cases index with
    | zero => rfl
    | succ index =>
      rw [valueAt, parameterCount_eq, Parameter.at]
      by_cases h : index < parameters.length <;> simp [Kind.parameters, h, Except.map]
  | call name arguments =>
    cases index with
    | zero => rfl
    | succ index =>
      rw [valueAt, parameterCount_eq, Parameter.at]
      by_cases h : index < arguments.length <;> simp [Kind.parameters, h, Except.map]

/-- Parameters have the roles that are listed. -/
theorem roleAt_eq : kind.roleAt index = (Parameter.at kind.parameters index).map (some ·.role) := by
  rw [roleAt, Parameter.at, parameterCount_eq]
  by_cases h : index < kind.parameters.length
  · rw [if_neg (Nat.not_le.2 h), List.getElem?_eq_getElem h]
    cases kind with
    | sequence | text | ifBlock => cases h
    | interpolation | capture | inclusion | comment =>
      obtain rfl : index = 0 := Nat.lt_one_iff.1 h
      rfl
    | conditional | list | assignment =>
      rcases Nat.le_one_iff_eq_zero_or_eq_one.1 (Nat.le_of_lt_succ h) with rfl | rfl <;> rfl
    | definition | call => cases index <;> simp [parameters, role?, Except.map]
  · rw [if_pos (Nat.not_lt.1 h), List.getElem?_eq_none (Nat.not_lt.1 h)]
    rfl

end Kind

/-! ### Dumps -/

namespace Tree

/-- The line of a parameter whose role may be unknown; an absent value has none. -/
def dumpValue (depth : Nat) (role : Option Role) : Parameter.Value → String
  | .absent => ""
  | value => indent depth ++ "  - " ++ (role.map Role.name).getD "[unknown role]" ++ ": " ++
    value.display ++ "\n"

/-- The lines of the parameters at some indices. -/
def dumpIndices (depth : Nat) (kind : Kind) : List Nat → Except OutOfRange String
  | [] => .ok ""
  | index :: indices => do
    let role ← kind.roleAt index
    let value ← kind.valueAt index
    let rest ← dumpIndices depth kind indices
    return dumpValue depth role value ++ rest

mutual

/-- The lines of an element and of everything below it, for which the parameters are asked for one by one. -/
def dumpIndexedAt (depth : Nat) : Tree → Except OutOfRange String
  | ⟨kind, _, _, children⟩ => do
    let parameters ← dumpIndices depth kind (List.range kind.parameterCount)
    let body ← dumpsIndexedAt (depth + 1) children
    return dumpKind depth kind ++ parameters ++ body

/-- The lines of some trees, for which the parameters are asked for one by one. -/
def dumpsIndexedAt (depth : Nat) : List Tree → Except OutOfRange String
  | [] => .ok ""
  | t :: ts => do
    let first ← dumpIndexedAt depth t
    let rest ← dumpsIndexedAt depth ts
    return first ++ rest

end

theorem dumpParameter_eq (depth : Nat) (p : Parameter) :
    dumpParameter depth p = dumpValue depth (some p.role) p.value := by
  obtain ⟨role, value⟩ := p
  cases value <;> rfl

theorem dumpIndices_eq (depth : Nat) (kind : Kind) {index count : Nat}
    (h : index + count = kind.parameters.length) :
    dumpIndices depth kind (List.range' index count) =
    .ok (String.join ((kind.parameters.drop index).map (dumpParameter depth))) := by
  induction count generalizing index with
  | zero =>
    rw [Nat.add_zero] at h
    rw [List.drop_eq_nil_of_le (Nat.le_of_eq h.symm)]
    rfl
  | succ count ih =>
    have hbound : index < kind.parameters.length := by omega
    have hat : Parameter.at kind.parameters index = .ok kind.parameters[index] := by
      rw [Parameter.at, List.getElem?_eq_getElem hbound]
    rw [List.range'_succ, dumpIndices, Kind.roleAt_eq, Kind.valueAt_eq, hat, ih (by omega),
      List.drop_eq_getElem_cons hbound, List.map_cons, String.join_cons, dumpParameter_eq]
    rfl

theorem dumpIndexedAt_of_body {depth : Nat} {t : Tree}
    (hbody : dumpsIndexedAt (depth + 1) t.children = .ok (dumpsAt (depth + 1) t.children)) :
    t.dumpIndexedAt depth = .ok (t.dumpAt depth) := by
  obtain ⟨kind, location, inBlock, children⟩ := t
  have hcount : 0 + kind.parameterCount = kind.parameters.length := by
    rw [Nat.zero_add, Kind.parameterCount_eq]
  have hparameters := dumpIndices_eq depth kind hcount
  rw [← List.range_eq_range', List.drop_zero] at hparameters
  rw [dumpIndexedAt, hparameters, hbody, dumpAt]
  rfl

theorem dumpsIndexedAt_eq (depth : Nat) (ts : List Tree) :
    dumpsIndexedAt depth ts = .ok (dumpsAt depth ts) := by
  induction ts using forest_induction generalizing depth with
  | nil => rw [dumpsIndexedAt, dumpsAt]
  | cons t ts ihBody ih =>
    rw [dumpsIndexedAt, dumpIndexedAt_of_body (ihBody (depth + 1)), ih, dumpsAt]
    rfl

/-- Asking for the parameters one by one never asks for one that is not there, and shows all of them. -/
theorem dumpIndexedAt_eq (depth : Nat) (t : Tree) : t.dumpIndexedAt depth = .ok (t.dumpAt depth) :=
  dumpIndexedAt_of_body (dumpsIndexedAt_eq (depth + 1) t.children)

end Tree

end Stencil
