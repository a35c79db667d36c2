/-!
# Files

A file system as data: what stands at which path. Symbolic links are followed the way the operating
system follows them, so that every path has at most one meaning.
-/

namespace Stencil

/-- The names on the way from the top of a file system to one of its entries. -/
abbrev Path := List String

/-- A path as it is shown to the reader. -/
def Path.display (p : Path) : String := if p.isEmpty then "/" else String.join (p.map ("/" ++ ·))

/-- What can stand at a path. -/
inductive Entry
  | file (content : ByteArray)
  | folder
  /-- Another name for what `target` leads to, from the top if `absolute`, and else from the folder
  of the link. -/
  | link (absolute : Bool) (target : List String)
deriving Inhabited

/-- Why a path leads nowhere. -/
inductive FileFault
  | missing
  | notFolder
  | tooManyLinks
deriving DecidableEq, Repr, Inhabited

def FileFault.message : FileFault → String
  | missing => "No such file or directory (os error 2)"
  | notFolder => "Not a directory (os error 20)"
  | tooManyLinks => "Too many levels of symbolic links (os error 40)"

/-- What stands at some paths. -/
structure FileSystem where
  entries : List (Path × Entry) := []
deriving Inhabited

namespace FileSystem

/-- What stands at a path without links. -/
def entry? (fs : FileSystem) (p : Path) : Option Entry :=
  if p.isEmpty then some .folder else fs.entries.lookup p

/-- Whether a folder stands at a path without links. -/
def isFolder (fs : FileSystem) (p : Path) : Bool :=
  match fs.entry? p with
  | some .folder => true
  | _ => false

/-- Goes from `here` along some names. `follow` goes on from where a link points to. -/
def walk (fs : FileSystem) (follow : Path → List String → Except FileFault Path) (here : Path) :
    List String → Except FileFault Path
  | [] => .ok here
  | name :: rest =>
    if !fs.isFolder here then .error .notFolder
    else if name = "" ∨ name = "." then fs.walk follow here rest
    else if name = ".." then fs.walk follow here.dropLast rest
    else match fs.entry? (here ++ [name]) with
      | none => .error .missing
      | some (.link absolute target) => follow (if absolute then [] else here) (target ++ rest)
      | some _ => fs.walk follow (here ++ [name]) rest

/-- Goes from `here` along some names, following at most `links` links. -/
def walkWithin (fs : FileSystem) : (links : Nat) → Path → List String → Except FileFault Path
  | 0, here, names => fs.walk (fun _ _ => .error .tooManyLinks) here names
  | links + 1, here, names => fs.walk (fs.walkWithin links) here names

/-- The most links that are followed on one way. -/
def maxLinks : Nat := 40

/-- The path without links that some names lead to from the top. -/
def canonical (fs : FileSystem) (names : List String) : Except FileFault Path :=
  fs.walkWithin maxLinks [] names

/-- The content of the file that a path leads to. -/
def content? (fs : FileSystem) (p : Path) : Option ByteArray :=
  match fs.canonical p with
  | .error _ => none
  | .ok p =>
    match fs.entry? p with
    | some (.file content) => some content
    | _ => none

/-- Where a path leads when its last names need not exist: the part that exists is followed, and the
names after it are kept as they are. -/
def settle (fs : FileSystem) : (rest : Nat) → Path → Path
  | 0, p => p
  | rest + 1, p =>
    match fs.canonical (p.take (rest + 1)) with
    | .ok resolved => resolved ++ p.drop (rest + 1)
    | .error _ => fs.settle rest p

/-- Where a path leads. -/
def resolve (fs : FileSystem) (p : Path) : Path := fs.settle p.length p

end FileSystem

end Stencil
