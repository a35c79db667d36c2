import Stencil.TemplateError

/-!
# Sinks

Where output goes. A sink may take a limited number of bytes; it may also fail to complete what it
has taken.
-/

namespace Stencil

/-- What becomes of a text that does not fit. -/
inductive Overflow
  /-- None of it is taken. -/
  | refuse
  /-- As much of it is taken as fits. -/
  | cut
deriving DecidableEq, Repr, Inhabited

/-- What was written and what still can be. -/
structure Sink where
  written : ByteArray := .empty
  /-- The most bytes the sink takes in all. -/
  limit : Option Nat := none
  overflow : Overflow := .refuse
  /-- What is reported when a text does not fit. -/
  fault : IoFault := .closed
  /-- Whether the output can be completed. -/
  completes : Bool := true
  /-- How often the output was to be completed. -/
  flushes : Nat := 0
deriving Inhabited

namespace Sink

/-- Writes a text, if it fits. Nothing is done for an empty text. -/
def write (s : Sink) (text : String) : Except IoFault Unit × Sink :=
  if text.isEmpty then (.ok (), s) else
  let bytes := text.toUTF8
  match s.limit with
  | none => (.ok (), { s with written := s.written ++ bytes })
  | some limit =>
    if s.written.size + bytes.size ≤ limit then (.ok (), { s with written := s.written ++ bytes })
    else match s.overflow with
      | .refuse => (.error s.fault, s)
      | .cut =>
        (.error s.fault, { s with written := s.written ++ bytes.extract 0 (limit - s.written.size) })

/-- Completes what was written so far. -/
def flush (s : Sink) : Except IoFault Unit × Sink :=
  (if s.completes then .ok () else .error .flushFailed, { s with flushes := s.flushes + 1 })

/-- What was written, as text. -/
def text (s : Sink) : String := (String.fromUTF8? s.written).getD ""

end Sink

end Stencil
