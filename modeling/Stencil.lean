import Stencil.Json.Reader
import Stencil.Render
import Stencil.Proofs.Execution.Balance
import Stencil.Proofs.Execution.Turns
import Stencil.Proofs.Cleanup.Meaning
import Stencil.Proofs.Reading.Canonical
import Stencil.Proofs.Execution.Regrouping
import Stencil.Proofs.Reading.Roundtrip
import Stencil.Proofs.Reading.Tokens
import Stencil.Proofs.Execution.Isolation
import Stencil.Proofs.Execution.Termination
import Stencil.Proofs.Inclusion.Containment
import Stencil.Proofs.Arena.Building
import Stencil.Proofs.Execution.Cutoff
import Stencil.Proofs.Execution.Trace
import Stencil.Proofs.Execution.Capturing
import Stencil.Proofs.Execution.Guards
import Stencil.Proofs.Execution.SafeRange
import Stencil.Proofs.Cleanup.Innermost
import Stencil.Proofs.Reading.Snippets
import Stencil.Proofs.Inclusion.Cycles
import Stencil.Proofs.Cleanup.DirectiveLines
import Stencil.Proofs.Cleanup.Foretold
import Stencil.Proofs.Cleanup.Terminals
import Stencil.Proofs.Cleanup.Again
import Stencil.Proofs.Cleanup.WellFormed
import Stencil.Proofs.Cleanup.Reprinting
import Stencil.Proofs.Cleanup.Collapsed
import Stencil.Proofs.Cleanup.Unpadded
import Stencil.Proofs.Reading.Selections
import Stencil.Proofs.Reading.Dumps
import Stencil.Proofs.Execution.Predicted
import Stencil.Proofs.Inclusion.Names
import Stencil.Proofs.Cleanup.Detached
import Stencil.Proofs.Reading.Ends
import Stencil.Proofs.Execution.Macros
