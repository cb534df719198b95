import Fabula.Text.Letters
import Fabula.Text.Blank
import Fabula.Text.Case
import Fabula.Text.Quoted
import Fabula.Number.Written
import Fabula.Number.Reading
import Fabula.Value.Conversion
import Fabula.Operator
import Fabula.Opcode
import Fabula.Block.Builder
import Fabula.Story.Element
import Fabula.Session.Load
import Fabula.Request.Profile
import Fabula.Sample.Cellar
import Fabula.Proofs.Bytes.Takes
import Fabula.Proofs.Text.Folding
import Fabula.Proofs.Session.Correspondence
import Fabula.Proofs.Table
import Fabula.Proofs.Value.Canonical
import Fabula.Proofs.Session.Restoring
import Fabula.Proofs.Ownership
import Fabula.Proofs.Session.Cast
import Fabula.Proofs.Session.RoundTrip
import Fabula.Proofs.Machine.Relational
import Fabula.Proofs.Machine.Renaming
import Fabula.Proofs.Machine.Operations
import Fabula.Proofs.Story.Constants
import Fabula.Proofs.Machine.Blocks
import Fabula.Proofs.Session.AddressFree
import Fabula.Proofs.Story.Blocks
import Fabula.Proofs.Story.Building
import Fabula.Proofs.Story.Bodies
import Fabula.Proofs.Story.Files
import Fabula.Proofs.Story.Lineage
import Fabula.Proofs.Machine.Budget
import Fabula.Proofs.Session.Runaway
import Fabula.Proofs.Machine.Plain
import Fabula.Proofs.Machine.Rules
import Fabula.Proofs.Request.Rules
import Fabula.Proofs.Machine.StackFrame
import Fabula.Proofs.Request.Endings
import Fabula.Proofs.Session.Endings
import Fabula.Proofs.Bytes.Yields
import Fabula.Proofs.Story.Made
import Fabula.Proofs.Session.WellKept
import Fabula.Proofs.Machine.Keeping
import Fabula.Proofs.Machine.Upkeep
import Fabula.Proofs.Session.Guarded
import Fabula.Proofs.Session.Upkeep
import Fabula.Proofs.Session.Admission
import Fabula.Proofs.Request.Tracing
import Fabula.Proofs.Session.Tracing
import Fabula.Proofs.Request.Isolation
import Fabula.Proofs.Session.Isolation
import Fabula.Proofs.Story.Operands
import Fabula.Proofs.Machine.Canonical
import Fabula.Proofs.Session.Canonical
import Fabula.Proofs.Session.Refusal
import Fabula.Proofs.Session.Acceptance
import Fabula.Proofs.Request.Progress
import Fabula.Proofs.Request.Cutoff
import Fabula.Proofs.Session.Cutoff
import Fabula.Proofs.Request.Nesting
import Fabula.Proofs.Request.Selection
import Fabula.Proofs.Request.Journal
import Fabula.Proofs.Request.Queueing
import Fabula.Proofs.Session.Queue
import Fabula.Proofs.Request.Telling
import Fabula.Proofs.Session.Telling
import Fabula.Proofs.Request.Attended
import Fabula.Proofs.Request.Profile
import Fabula.Proofs.Session.Scopes
import Fabula.Proofs.Story.Forest
import Fabula.Proofs.Bytes.Delimited
import Fabula.Proofs.Story.Delimited
import Fabula.Proofs.Story.Payload
import Fabula.Proofs.Bytes.Stable
import Fabula.Proofs.Session.Truncation
import Fabula.Proofs.Bytes.Refuses
import Fabula.Proofs.Story.Depth
import Fabula.Proofs.Story.Headers
import Fabula.Proofs.Session.Digests
import Fabula.Proofs.Story.Spelling
import Fabula.Proofs.Value.Bisimilarity
import Fabula.Proofs.Ownership.Holdings
import Fabula.Proofs.Request.CallDepth
import Fabula.Proofs.Session.CallDepth
import Fabula.Proofs.Bytes.Pairs
import Fabula.Proofs.Session.Replacement
import Fabula.Proofs.Value.Rendering
import Fabula.Proofs.Story.Remembered
import Fabula.Proofs.Machine.Plan
import Fabula.Proofs.Machine.Unwinding
import Fabula.Proofs.Machine.Returning
import Fabula.Proofs.Session.Returning
import Fabula.Proofs.Request.Loops
import Fabula.Proofs.Number.Rounding
import Fabula.Proofs.Value.Comparison
import Fabula.Proofs.Value.Arithmetic
import Fabula.Proofs.Value.Power
import Fabula.Proofs.Bytes.Groups
import Fabula.Proofs.Ownership.Reach
import Fabula.Proofs.Story.Wording
import Fabula.Proofs.Request.Labels
import Fabula.Proofs.Request.LabelCache
