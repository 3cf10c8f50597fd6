import Resumable.Binding
import Resumable.Chain.Basic
import Resumable.Chain.Draft
import Resumable.Chain.Printer
import Resumable.Data.Basic
import Resumable.Data.Chain
import Resumable.Data.Syntax
import Resumable.Enumerator
import Resumable.Eval
import Resumable.Fault
import Resumable.Frame
import Resumable.Lost
import Resumable.Machine
import Resumable.Marks
import Resumable.Named
import Resumable.Session.Command
import Resumable.Session.Library
import Resumable.Session.Script
import Resumable.Session.State
import Resumable.Splitting.Body
import Resumable.Splitting.Reduce
import Resumable.Splitting.Error
import Resumable.Splitting.Hoist
import Resumable.Splitting.Method
import Resumable.Suspension
import Resumable.Syntax.Basic
import Resumable.Syntax.Equality
import Resumable.Syntax.Printer
import Resumable.Task
import Resumable.Text.Quoted
import Resumable.Text.Unseen
import Resumable.Value
import Resumable.World
import Resumable.Proofs.Derivation
import Resumable.Proofs.Layout
import Resumable.Proofs.Growth
import Resumable.Proofs.Cleanup
import Resumable.Proofs.Contents
import Resumable.Proofs.Nesting
import Resumable.Proofs.Enclosure
import Resumable.Proofs.WellFormed
import Resumable.Proofs.Clients
import Resumable.Proofs.Ledger
import Resumable.Proofs.Delivery
import Resumable.Proofs.Ending
import Resumable.Proofs.Locality
import Resumable.Proofs.Segments
import Resumable.Proofs.Interleaving
import Resumable.Proofs.Phases
import Resumable.Proofs.Confluence
import Resumable.Proofs.Captures
import Resumable.Proofs.Returns
import Resumable.Proofs.Acceptance
import Resumable.Proofs.Accounting
import Resumable.Proofs.Cancellation
import Resumable.Proofs.Compaction
import Resumable.Proofs.Conduct
import Resumable.Proofs.Discretion
import Resumable.Proofs.Disposal
import Resumable.Proofs.Initialised
import Resumable.Proofs.Lifecycle
import Resumable.Proofs.Queues
import Resumable.Proofs.Soundness
import Resumable.Proofs.Uniqueness
import Resumable.Proofs.Measures
import Resumable.Proofs.Hoisting
import Resumable.Proofs.Conservation
import Resumable.Proofs.Reception
import Resumable.Proofs.Straight
import Resumable.Proofs.References
import Resumable.Proofs.SinglePass
import Resumable.Proofs.Forest
import Resumable.Proofs.Detours
import Resumable.Proofs.Shortcut
import Resumable.Proofs.Effects
import Resumable.Proofs.Flatness
import Resumable.Proofs.Roundtrip
import Resumable.Proofs.Liveness
import Resumable.Proofs.Numbering
