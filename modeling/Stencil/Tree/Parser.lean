import Stencil.Tree
import Stencil.Expr.Parser

/-!
# Reading templates

The tree of a template as it was written, before any cleanup: a sequence of texts, comments and tags,
where the tags of directives with a body enclose further sequences.

A reader of a body is given a `bound` that is at least the number of tokens before the end of the
input. When the bound is used up, only that end is left.
-/

namespace Stencil.Tree

/-- The branch that a tag at the beginning starts: `elseif` or `else`. -/
def branchAhead? : List Token → Option Branch
  | a :: b :: c :: _ =>
    if a.kind = .opening ∧ b.kind = .hash ∧ c.kind = .identifier then
      if c.value = "elseif" then some .elseIf
      else if c.value = "else" then some .otherwise
      else none
    else none
  | _ => none

/-- Whether a body ends here: at a closing tag or a branch. -/
def endsBody (ts : List Token) : Bool :=
  (nextKind ts == .opening && nextKind (ts.drop 1) == .slash) || (branchAhead? ts).isSome

/-- Takes the tag that closes a block, whose first token was `opened`, and hands back the position of
its last character. -/
def readClosing (block : Block) (opened : Token) : Reader Position := fun ts => do
  if nextKind ts = .eof then opened.fail (.unterminated (.block block))
  else
    let (_, rest) ← expect .opening ts
    let (_, rest) ← expect .slash rest
    match rest with
    | [] => Token.fail default (.mismatchedClose block.keyword "")
    | name :: rest =>
      if name.kind = .identifier ∧ name.value = block.keyword then
        let (close, rest) ← expect .closing rest
        return (close.last, rest)
      else name.fail (.mismatchedClose block.keyword name.value)

/-- An element that no if block holds. -/
def plain (kind : Kind) (source : Option Source) (first last : Position)
    (children : List Tree) : Tree :=
  ⟨kind, ⟨source, first, last⟩, false, children⟩

/-- Reads the rest of an if block from the condition of a branch on: the branches, and the position
of the last character of the closing tag. `header` is the first token of the branch and `opened` that
of the block. -/
def readBranches (source : Option Source) (body : Reader (List Tree)) (opened : Token) :
    (bound : Nat) → (branch : Branch) → (header : Token) → Reader (List Tree × Position)
  | 0, _, _, _ => opened.fail (.unterminated (.block .conditional))
  | bound + 1, branch, header, ts => do
    let (condition, rest) ← match branch with
      | .otherwise => pure (none, ts)
      | _ => do
        let (e, rest) ← Expr.read source ts
        pure (some e, rest)
    let (close, rest) ← expect .closing rest
    let (children, rest) ← body rest
    let location :=
      Location.enclosing source header.first close.last (children.getLast?.map (·.location))
    let element : Tree := ⟨.conditional branch condition, location, true, children⟩
    match branchAhead? rest with
    | some next =>
      if branch = .otherwise then
        (rest.head?.getD default).fail (.branchAfterElse (rest.head?.getD default))
      else
        let ((elements, last), rest) ←
          readBranches source body opened bound next (rest.head?.getD default) (rest.drop 3)
        return ((element :: elements, last), rest)
    | none =>
      let (last, rest) ← readClosing .conditional opened rest
      return (([element], last), rest)

def readIf (source : Option Source) (body : Reader (List Tree)) (opened : Token) : Reader Tree :=
  fun ts => do
    let ((branches, last), rest) ← readBranches source body opened ts.length .main opened ts
    return (plain .ifBlock source opened.first last branches, rest)

def readList (source : Option Source) (body : Reader (List Tree)) (opened : Token) : Reader Tree :=
  fun ts => do
    let (items, rest) ← Expr.read source ts
    let (_, rest) ← expect .keywordAs rest
    let (item, rest) ← expectName rest
    let (_, rest) ← expect .closing rest
    let (children, rest) ← body rest
    let (last, rest) ← readClosing .list opened rest
    return (plain (.list items item) source opened.first last children, rest)

/-- Reads an assignment after its name: of a value, or of the output of a body. -/
def readAssignment (source : Option Source) (body : Reader (List Tree)) (opened : Token) :
    Reader Tree :=
  fun ts => do
    let (target, rest) ← expectName ts
    if nextKind rest = .equal then
      let (value, rest) ← Expr.read source (rest.drop 1)
      let (close, rest) ← expect .closing rest
      return (plain (.assignment target value) source opened.first close.last [], rest)
    else
      let (_, rest) ← expect .closing rest
      let (children, rest) ← body rest
      let (last, rest) ← readClosing .assign opened rest
      return (plain (.capture target) source opened.first last children, rest)

/-- Reads the parameters of a macro up to the end of its tag; `read` are those before. -/
def readParameters (read : List String) : Reader (List String)
  | [] => .ok (read, [])
  | t :: rest =>
    if t.kind = .closing then .ok (read, t :: rest)
    else do
      let (name, _) ← expectName (t :: rest)
      if name ∈ read then t.fail (.duplicateParameter name)
      else readParameters (read ++ [name]) rest

/-- Reads the definition of a macro after its name. -/
def readDefinition (source : Option Source) (body : Reader (List Tree)) (opened : Token) :
    Reader Tree :=
  fun ts => do
    let (name, rest) ← expectName ts
    let (parameters, rest) ← readParameters [] rest
    let (_, rest) ← expect .closing rest
    let (children, rest) ← body rest
    let (last, rest) ← readClosing .definition opened rest
    return (plain (.definition name parameters) source opened.first last children, rest)

def readInclusion (source : Option Source) (opened : Token) : Reader Tree := fun ts => do
  let (path, rest) ← Expr.read source ts
  let (close, rest) ← expect .closing rest
  return (plain (.inclusion path) source opened.first close.last [], rest)

/-- Reads the arguments of a call, separated by commas. -/
def readArguments (source : Option Source) : (bound : Nat) → Reader (List Expr)
  | 0, ts => (ts.head?.getD default).fail (.expectedExpression (ts.head?.getD default))
  | bound + 1, ts => do
    let (e, rest) ← Expr.read source ts
    if nextKind rest = .comma then
      let (es, rest) ← readArguments source bound (rest.drop 1)
      return (e :: es, rest)
    else return ([e], rest)

/-- Reads the call of a macro after its mark. -/
def readCall (source : Option Source) (opened : Token) : Reader Tree := fun ts => do
  let (name, rest) ← expectName ts
  let (arguments, rest) ←
    if nextKind rest = .closing then pure ([], rest) else readArguments source rest.length rest
  let (close, rest) ← expect .closing rest
  return (plain (.call name arguments) source opened.first close.last [], rest)

def readInterpolation (source : Option Source) (opened : Token) : Reader Tree := fun ts => do
  let (value, rest) ← Expr.read source ts
  let (close, rest) ← expect .closing rest
  return (plain (.interpolation value) source opened.first close.last [], rest)

def readDirective (source : Option Source) (body : Reader (List Tree)) (opened : Token) :
    Reader Tree
  | [] => Token.fail default (.expectedDirective default)
  | name :: rest =>
    if name.kind ≠ .identifier then name.fail (.expectedDirective name)
    else if name.value = "if" then readIf source body opened rest
    else if name.value = "list" then readList source body opened rest
    else if name.value = "assign" then readAssignment source body opened rest
    else if name.value = "macro" then readDefinition source body opened rest
    else if name.value = "include" then readInclusion source opened rest
    else if name.value = "elseif" ∨ name.value = "else" then name.fail (.branchOutsideIf name)
    else name.fail (.unknownDirective name.value)

def readElement (source : Option Source) (body : Reader (List Tree)) : Reader Tree
  | [] => Token.fail default (.strayToken default)
  | t :: rest =>
    match t.kind with
    | .text => .ok (plain (.text t.value false) source t.first t.last [], rest)
    | .comment => .ok (plain (.comment t.value) source t.first t.last [], rest)
    | .opening =>
      match nextKind rest with
      | .hash => readDirective source body t (rest.drop 1)
      | .atSign => readCall source t (rest.drop 1)
      | _ => readInterpolation source t rest
    | _ => t.fail (.strayToken t)

/-- Reads elements up to the end of a body. -/
def readBody (source : Option Source) : (bound : Nat) → Reader (List Tree)
  | 0, ts => .ok ([], ts)
  | bound + 1, ts =>
    if nextKind ts = .eof || endsBody ts then .ok ([], ts)
    else do
      let (element, rest) ← readElement source (readBody source bound) ts
      let (elements, rest) ← readBody source bound rest
      return (element :: elements, rest)

/-- The span of all tokens before the end of the input. -/
def spanOf (source : Option Source) (tokens : List Token) : Location :=
  match tokens.head?, tokens.dropLast.getLast? with
  | some first, some last => ⟨source, first.first, last.last⟩
  | _, _ => ⟨source, .start, ⟨1, 0⟩⟩

/-- The tree of a template before cleanup. -/
def parse (source : Source) : Except ParseError Tree := do
  let tokens ← tokenize source.text
  let (children, rest) ← readBody (some source) tokens.length tokens
  match rest with
  | t :: _ => if t.kind ≠ .eof then t.fail (.strayClosing t)
  | [] => pure ()
  return ⟨.sequence, spanOf (some source) tokens, false, children⟩

end Stencil.Tree
