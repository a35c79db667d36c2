import Stencil.ParseError
import Stencil.Value
import Stencil.Tree
import Stencil.Files
import Stencil.Text.Escaped

/-!
# Template errors

What can go wrong when a template is read or run. An error that is raised while a template runs knows
its site: the element or expression at fault, and the elements that were running around it.
`TemplateError.message` is the wording.

One error is no fault of a template or its data: settings that cannot be worked with. A run that meets
it is abandoned where it stands.
-/

namespace Stencil

/-- The element or expression an error was raised at. -/
structure ErrorSite where
  location : Location
  /-- The template text of the failing part, or its canonical form. -/
  snippet : String
  /-- The elements that were running, innermost first. -/
  trace : List String := []
deriving DecidableEq, Repr, Inhabited

namespace ErrorSite

def ofExpr (e : Expr) : ErrorSite := { location := e.location, snippet := e.source }

def ofTree (t : Tree) : ErrorSite := { location := t.location, snippet := t.source }

/-- A site as messages show it. -/
def describe (s : ErrorSite) : String := s.location.describe ++ " in `" ++ s.snippet ++ "`"

end ErrorSite

/-- A value that does not fit where it is used. Types are given by their names. -/
inductive TypeFault
  /-- An integer literal outside the safe range. -/
  | literal (e : ValueError)
  | noKeys (key type : String)
  | sumOutOfRange (a b : Int)
  | cannotAdd (a b : String)
  | notCode (type : String)
  /-- The canonical form of an interpolated expression whose value is null. -/
  | printsNull (expression : String)
  | notPrintable (e : ValueError)
  | notSequence (type : String)
  | pathNotString (type : String)
  | tooManyArguments (name : String) (takes got : Nat)
  | notMacro (name : String)
deriving DecidableEq, Repr, Inhabited

def TypeFault.message : TypeFault → String
  | literal e => e.message
  | noKeys key type => "cannot read key '" ++ key ++ "' of " ++ type
  | sumOutOfRange a b => "integer overflow in " ++ toString a ++ " + " ++ toString b
  | cannotAdd a b => "cannot add " ++ a ++ " and " ++ b
  | notCode type => "?eval expects a string, got " ++ type
  | printsNull expression => "'" ++ expression ++ "' evaluated to null"
  | notPrintable e => e.message
  | notSequence type => "#list expects a sequence, got " ++ type
  | pathNotString type => "include path must be a string, got " ++ type
  | tooManyArguments name takes got =>
    "macro '" ++ name ++ "' takes " ++ toString takes ++ " argument(s), got " ++ toString got
  | notMacro name => "'" ++ name ++ "' is not a macro"

/-- Why a template cannot be included. -/
inductive IncludeFault
  | invalidRoot (f : FileFault)
  | noLeadingSlash (name : String)
  | traversal (name : String)
  | invalidSegment (segment name : String)
  /-- The names from the earlier inclusion of the same name to this one. -/
  | circular (chain : List String)
  | escapesRoot (path : Path)
  | notFound (name : String) (path : Path)
  | unreadable (name : String) (e : ParseError)
  | noRoot (name : String)
deriving DecidableEq, Repr, Inhabited

def IncludeFault.message : IncludeFault → String
  | invalidRoot f => "invalid include root: " ++ f.message
  | noLeadingSlash name => "include name must start with '/': " ++ name
  | traversal name => "invalid include name (path traversal): " ++ name
  | invalidSegment segment name => "invalid include segment '" ++ segment ++ "' in '" ++ name ++ "'"
  | circular chain => "circular include detected: " ++ " -> ".intercalate chain
  | escapesRoot path => "path traversal detected: " ++ path.display
  | notFound name path => "include file not found: " ++ name ++ " (" ++ path.display ++ ")"
  | unreadable name e => "failed to parse include '" ++ name ++ "': " ++ e.message
  | noRoot name => "cannot include '" ++ name ++ "': no include root configured"

/-- Why reading or writing failed. -/
inductive IoFault
  /-- The output takes no more. -/
  | closed
  /-- The output cannot be completed. -/
  | flushFailed
  /-- A file holds bytes that are no text. -/
  | notText
deriving DecidableEq, Repr, Inhabited

def IoFault.message : IoFault → String
  | closed => "closed"
  | flushFailed => "flush failed"
  | notText => "stream did not contain valid UTF-8"

/-- What can go wrong with a template. -/
inductive TemplateError
  | parse (e : ParseError)
  | undefinedVariable (name : String) (site : ErrorSite)
  | type (fault : TypeFault) (site : ErrorSite)
  | undefinedMacro (name : String) (site : ErrorSite)
  /-- A text that was to be evaluated is no expression. -/
  | eval (e : ParseError) (site : ErrorSite)
  | tooDeep (limit : Nat) (site : ErrorSite)
  | inclusion (fault : IncludeFault) (site : Option ErrorSite)
  | data (e : ValueError)
  | io (fault : IoFault)
  /-- The extension of the settings has a slash, so it cannot be part of a file's name. -/
  | extension (text : String)
deriving DecidableEq, Repr, Inhabited

namespace TemplateError

def message : TemplateError → String
  | parse e => "parse error: " ++ e.message
  | undefinedVariable name site => "undefined variable '" ++ name ++ "' at " ++ site.describe
  | type fault site => "type error: " ++ fault.message ++ " at " ++ site.describe
  | undefinedMacro name site => "undefined macro '" ++ name ++ "' at " ++ site.describe
  | eval e site => "cannot evaluate fragment: " ++ e.message ++ " at " ++ site.describe
  | tooDeep limit site =>
    "nesting limit of " ++ toString limit ++ " exceeded at " ++ site.describe
  | inclusion fault none => "include error: " ++ fault.message
  | inclusion fault (some site) => "include error: " ++ fault.message ++ " at " ++ site.describe
  | data e => "invalid data: " ++ e.message
  | io fault => "IO error: " ++ fault.message
  | extension text => "extension cannot contain path separators: " ++ Text.escaped text

/-- Whether a run that meets this error is abandoned: nothing that was begun is ended. -/
def abandons : TemplateError → Bool
  | extension _ => true
  | _ => false

def site? : TemplateError → Option ErrorSite
  | undefinedVariable _ site | type _ site | undefinedMacro _ site | eval _ site
  | tooDeep _ site => some site
  | inclusion _ site => site
  | _ => none

def mapSite (f : ErrorSite → ErrorSite) : TemplateError → TemplateError
  | undefinedVariable name site => undefinedVariable name (f site)
  | type fault site => type fault (f site)
  | undefinedMacro name site => undefinedMacro name (f site)
  | eval e site => eval e (f site)
  | tooDeep limit site => tooDeep limit (f site)
  | inclusion fault site => inclusion fault (site.map f)
  | e => e

/-- Places an error about an inclusion at an element, unless it has a place already. -/
def locatedAt (t : Tree) : TemplateError → TemplateError
  | inclusion fault none => inclusion fault (some (.ofTree t))
  | e => e

/-- Adds the trace to an error whose trace is empty. -/
def attachTrace (trace : List String) (e : TemplateError) : TemplateError :=
  e.mapSite fun site => if site.trace.isEmpty then { site with trace } else site

end TemplateError

end Stencil
