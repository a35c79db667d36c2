import Stencil.Expr
import Stencil.Text.Blank
import Stencil.Text.Escaped

/-!
# Kinds of element

What the elements of a template can be, with everything that belongs to one element alone: its
parameters, the tag that opens it, and how it bears on the blanks around it.
-/

namespace Stencil

inductive Branch
  | main
  | elseIf
  | otherwise
deriving DecidableEq, Repr, Inhabited

/-- The word that opens a branch. -/
def Branch.keyword : Branch → String
  | .main => "#if"
  | .elseIf => "#elseif"
  | .otherwise => "#else"

/-- The number of a branch as a parameter. -/
def Branch.code : Branch → Nat
  | .main => 0
  | .elseIf => 1
  | .otherwise => 2

/-- What an element is. -/
inductive Kind
  /-- A plain sequence of elements, such as a whole template. -/
  | sequence
  /-- Static text; `trimmed` once the blanks around it have been dealt with. -/
  | text (text : String) (trimmed : Bool)
  /-- Prints the value of an expression. -/
  | interpolation (value : Expr)
  /-- Holds the branches of one `#if`. -/
  | ifBlock
  /-- One branch; the else branch has no condition. -/
  | conditional (branch : Branch) (condition : Option Expr)
  /-- Runs its body once for each item of a sequence. -/
  | list (source : Expr) (item : String)
  /-- Gives a global a value. -/
  | assignment (target : String) (value : Expr)
  /-- Gives a global the output of the body. -/
  | capture (target : String)
  | definition (name : String) (parameters : List String)
  | call (name : String) (arguments : List Expr)
  /-- Runs another template. -/
  | inclusion (path : Expr)
  /-- Prints nothing. -/
  | comment (text : String)
deriving DecidableEq, Repr, Inhabited

namespace Kind

/-- Whether the element may run its body more than once. -/
def isRepeater : Kind → Bool
  | list _ _ => true
  | _ => false

/-- Whether the element never writes output where it stands. Blank text beside it can be dropped. -/
def isSilent : Kind → Bool
  | definition _ _ | assignment _ _ | capture _ | comment _ => true
  | _ => false

/-- Whether walks over leaves take the element for a leaf even if it has a body, because the body
does not run where it stands. -/
def isUnit : Kind → Bool
  | definition _ _ | capture _ => true
  | _ => false

/-- Whether the element is listed in the trace of an error inside it. -/
def isTraced : Kind → Bool
  | list _ _ | call _ _ | inclusion _ | capture _ => true
  | _ => false

/-- The text before the first line feed, if there is a line feed. -/
def firstLine? (cs : List Char) : Option (List Char) :=
  if '\n' ∈ cs then some (cs.takeWhile (· ≠ '\n')) else none

/-- The text after the last line feed, if there is a line feed. -/
def lastLine? (cs : List Char) : Option (List Char) :=
  (firstLine? cs.reverse).map List.reverse

/-- Whether the part of a text that shares a line with its neighbour has content; a text without a
line feed shares its line with both neighbours. -/
def heedsLine (line? : Option (List Char)) (text : List Char) : Bool :=
  match line? with
  | some line => !decide (Text.AllBlank line)
  | none => !text.isEmpty

/-- Whether the element keeps the blanks that begin a line of the text after it. -/
def heedsOpening : Kind → Bool
  | text t _ => heedsLine (lastLine? t.toList) t.toList
  | interpolation _ => true
  | _ => false

/-- Whether the element keeps the blanks that end a line of the text before it. -/
def heedsTrailing : Kind → Bool
  | text t _ => heedsLine (firstLine? t.toList) t.toList
  | interpolation _ => true
  | _ => false

/-- A short name of the construct. -/
def descriptor : Kind → String
  | sequence => "#mixed_content"
  | text _ _ => "#text"
  | interpolation _ => "\x7b[...]\x7d"
  | ifBlock => "#if-#elseif-#else-container"
  | conditional branch _ => branch.keyword
  | list _ _ => "#list"
  | assignment _ _ | capture _ => "#assign"
  | definition _ _ => "#macro"
  | call _ _ => "@"
  | inclusion _ => "#include"
  | comment _ => "\x7b[%...]\x7d"

/-- A tag around its content. -/
def tag (content : String) : String := "\x7b[" ++ content ++ "]\x7d"

/-- The tag that begins the element; for an element without a body, all of it. -/
def openTag : Kind → String
  | sequence | text _ _ | ifBlock => ""
  | interpolation e => tag (" " ++ e.canonical ++ " ")
  | conditional branch (some c) => tag (branch.keyword ++ " " ++ c.canonical)
  | conditional branch none => tag branch.keyword
  | list source item => tag ("#list " ++ source.canonical ++ " as " ++ item)
  | assignment target value => tag ("#assign " ++ target ++ " = " ++ value.canonical)
  | capture target => tag ("#assign " ++ target)
  | definition name parameters => tag ("#macro " ++ " ".intercalate (name :: parameters))
  | call name [] => tag ("@" ++ name)
  | call name arguments =>
    tag ("@" ++ name ++ " " ++ ", ".intercalate (arguments.map Expr.canonical))
  | inclusion path => tag ("#include " ++ path.canonical)
  | comment t => tag ("%" ++ t)

/-- One line that names the element, without its body. A text is shown by its first characters. -/
def description : Kind → String
  | sequence => sequence.descriptor
  | ifBlock => ifBlock.descriptor
  | text t _ =>
    let shown := String.ofList (t.toList.take 20)
    "text " ++ Text.escaped (if shown.utf8ByteSize < t.utf8ByteSize then shown ++ "..." else shown)
  | kind => kind.openTag

end Kind

end Stencil
