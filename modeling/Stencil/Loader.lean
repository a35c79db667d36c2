import Stencil.Template
import Stencil.TemplateError

/-!
# Loaders

Finds the templates that are included by name. A name is made of segments, each after a slash, and
leads to a file below a root folder; no link leads out of that folder, and no template can be loaded
while it is running.
-/

namespace Stencil

/-- The files that can be included, and the inclusions that are running. -/
structure Loader where
  files : FileSystem
  /-- The folder that names start from, without links. -/
  root : Path
  /-- What follows the last segment of a name in a file's name. -/
  extension : String
  /-- Whether blanks that only pad directives are dropped. -/
  strip : Bool
  /-- The names of the running inclusions, innermost first. -/
  running : List String := []
deriving Inhabited

namespace Loader

/-- A failure to include. -/
def fail {α : Type} (fault : IncludeFault) : Except TemplateError α :=
  .error (.inclusion fault none)

/-- A loader over the folder that some names lead to. -/
def open? (files : FileSystem) (root : List String) (extension : String) (strip : Bool) :
    Except TemplateError Loader :=
  match files.canonical root with
  | .ok root => .ok { files, root, extension, strip }
  | .error f => fail (.invalidRoot f)

/-- The parts of a text between its slashes. -/
def segments : List Char → List (List Char)
  | [] => [[]]
  | c :: cs =>
    if c = '/' then [] :: segments cs
    else match segments cs with
      | [] => [[c]]
      | s :: rest => (c :: s) :: rest

/-- Whether a character comes twice in a row. -/
def hasPair (x : Char) : List Char → Bool
  | a :: b :: rest => (a == x && b == x) || hasPair x (b :: rest)
  | _ => false

/-- An ASCII letter or an underscore. -/
def isNameStart (c : Char) : Bool := Lexer.isWordStart c

/-- Whether a segment is a word of ASCII letters, digits, underscores and hyphens that begins with a
letter or an underscore. -/
def isSegment : List Char → Bool
  | [] => false
  | c :: cs => isNameStart c && cs.all fun c => Lexer.isWordPart c || c = '-'

/-- Refuses a name that is no sequence of segments, each after a slash. -/
def checkName (name : String) : Except TemplateError Unit :=
  match name.toList with
  | '/' :: relative =>
    if hasPair '.' relative || hasPair '/' relative || relative.any (fun c => c = '\\' || c = ':') then
      fail (.traversal name)
    else
      match (segments relative).find? fun s => !isSegment s with
      | some s => fail (.invalidSegment (String.ofList s) name)
      | none => .ok ()
  | _ => fail (.noLeadingSlash name)

/-- The names that a name is made of. -/
def pathOf (name : String) : List String :=
  ((segments name.toList).filter fun s => !s.isEmpty).map String.ofList

/-- The name of a file up to its last dot; a dot that begins the name does not count. -/
def stem (name : String) : String :=
  match name.toList.reverse.dropWhile (· ≠ '.') with
  | _ :: c :: cs => String.ofList (c :: cs).reverse
  | _ => name

/-- The path of a file with an extension in place of the one its name has, if it has one. -/
def withExtension (extension : String) : Path → Path
  | [] => []
  | [last] =>
    [if last = ".." then last
      else if extension.isEmpty then stem last
      else stem last ++ "." ++ extension]
  | s :: rest => s :: withExtension extension rest

/-- The path of the file that a name stands for. -/
def fileFor (l : Loader) (name : String) : Path := withExtension l.extension (l.root ++ pathOf name)

/-- Whether a path leads to the root or below it. -/
def contains (l : Loader) (p : Path) : Bool := l.root.isPrefixOf (l.files.resolve p)

/-- The names from the running inclusion of a name to the innermost one, and the name again. -/
def chainTo (l : Loader) (name : String) : List String :=
  l.running.reverse.dropWhile (· ≠ name) ++ [name]

/-- The template of a name. The extension matters, and is checked, only once a file is looked for. -/
def load (l : Loader) (name : String) : Except TemplateError Template := do
  checkName name
  if name ∈ l.running then fail (.circular (l.chainTo name))
  else if '/' ∈ l.extension.toList then .error (.extension l.extension)
  else
    let path := l.fileFor name
    if !l.contains path then fail (.escapesRoot path)
    else match l.files.content? path with
      | none => fail (.notFound name path)
      | some bytes =>
        match String.fromUTF8? bytes with
        | none => .error (.io .notText)
        | some text =>
          match Template.parse (some name) text l.strip with
          | .error e => fail (.unreadable name e)
          | .ok t => .ok t

def beginInclusion (l : Loader) (name : String) : Loader := { l with running := name :: l.running }

/-- Takes the mark of the innermost running name away. -/
def endInclusion (l : Loader) : Loader := { l with running := l.running.tail }

end Loader

end Stencil
