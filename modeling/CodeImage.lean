import CodeImage.Bytes
import CodeImage.Binary.Codec
import CodeImage.BitSet
import CodeImage.Text.Numeral
import CodeImage.Command.Arguments
import CodeImage.Relocation.Record
import CodeImage.Search
import CodeImage.Handler.Table
import CodeImage.Handle
import CodeImage.Flow.Graph
import CodeImage.Text.Hex
import CodeImage.Memory.Flags
import CodeImage.Text.Invisible
import CodeImage.Text.Quoted
import CodeImage.Memory.Placement
import CodeImage.Memory.Map
import CodeImage.Region.Annotation
import CodeImage.Region.Basic
import CodeImage.Image.Error
import CodeImage.Flow.DepthFirst
import CodeImage.Flow.Reach
import CodeImage.Flow.Dominance
import CodeImage.Flow.Loops
import CodeImage.Flow.Cold
import CodeImage.Schedule.Ownership
import CodeImage.Schedule.SlotGraph
import CodeImage.Schedule.Forest
import CodeImage.Schedule.Merging
import CodeImage.Schedule.Indexing
import CodeImage.Schedule.Basic
import CodeImage.Image.Program
import CodeImage.Image.Basic
import CodeImage.Handler.Types
import CodeImage.Listing.Insn
import CodeImage.Listing.Method
import CodeImage.Listing.Basic
import CodeImage.Command.Report
import CodeImage.Image.Binary
import CodeImage.Image.Check
import CodeImage.Image.Emit
import CodeImage.Image.Place
import CodeImage.Image.Patch
import CodeImage.Image.Collect
import CodeImage.Image.Layout
import CodeImage.Listing.Board
import CodeImage.Text.Blank
import CodeImage.Listing.Token
import CodeImage.Listing.Cursor
import CodeImage.Listing.Reader
import CodeImage.Listing.Cases
import CodeImage.Listing.Check
import CodeImage.Listing.Machine
import CodeImage.Command.Run
import CodeImage.Flow.PostDominance
import CodeImage.Flow.Cache
import CodeImage.Main
import CodeImage.NatSet
import CodeImage.Random.Source
import CodeImage.Random.MemoryScript
import CodeImage.Random.Method
import CodeImage.Proofs.Flow.Reachability
import CodeImage.Proofs.Flow.Walk
import CodeImage.Proofs.Schedule.Ownership
import CodeImage.Proofs.Schedule.Runs
import CodeImage.Proofs.Schedule.Numbering
import CodeImage.Proofs.Schedule.Complete
import CodeImage.Proofs.Memory.Map
import CodeImage.Proofs.Memory.History
import CodeImage.Proofs.Memory.Accounting
import CodeImage.Proofs.Outcome
import CodeImage.Proofs.Relocation.Replay
import CodeImage.Proofs.Handler.Ranges
import CodeImage.Proofs.Image.Rounds
import CodeImage.Proofs.Image.Emission
import CodeImage.Proofs.Image.Housing
import CodeImage.Proofs.Image.Placement
import CodeImage.Proofs.Image.Patching
import CodeImage.Proofs.Image.Addresses
import CodeImage.Proofs.Image.Order
import CodeImage.Proofs.Image.Sections
import CodeImage.Proofs.Image.Checked
import CodeImage.Proofs.Image.Failures
import CodeImage.Proofs.Listing.WellFormed
import CodeImage.Proofs.Listing.Encoding
import CodeImage.Proofs.Listing.ControlFlow
import CodeImage.Proofs.Listing.Validity
import CodeImage.Proofs.Image.Allotment
import CodeImage.Proofs.Image.Pointers
import CodeImage.Proofs.Image.Adjacency
import CodeImage.Proofs.Relocation.Load
import CodeImage.Proofs.Image.Loading
import CodeImage.Proofs.Listing.Scanning
import CodeImage.Proofs.Listing.Items
import CodeImage.Proofs.Listing.Drafts
import CodeImage.Proofs.Listing.Rendering
import CodeImage.Proofs.Image.Restarts
import CodeImage.Proofs.Listing.Convergence
import CodeImage.Proofs.Flow.Session
import CodeImage.Proofs.Image.References
import CodeImage.Proofs.Listing.Dangling
import CodeImage.Proofs.Image.Rows
import CodeImage.Proofs.Listing.EntryAlignment
import CodeImage.Proofs.Flow.Closure
import CodeImage.Proofs.Flow.DominatorTree
import CodeImage.Proofs.Flow.Dominance
import CodeImage.Proofs.Flow.PostDominance
import CodeImage.Proofs.Flow.Loops
import CodeImage.Proofs.Relocation.RoundTrip
import CodeImage.Proofs.Handler.Types
import CodeImage.Proofs.Handler.Dispatch
import CodeImage.Memory.Words
import CodeImage.Proofs.Memory.FirstFit
import CodeImage.Proofs.Memory.Canonical
import CodeImage.Proofs.Image.Relocated
import CodeImage.Proofs.Listing.Relocations
import CodeImage.Proofs.Image.Collection
import CodeImage.Proofs.Schedule.Aliasing
import CodeImage.Proofs.Schedule.Threads
import CodeImage.Proofs.Schedule.StraightLines
import CodeImage.Proofs.Flow.Ancestry
import CodeImage.Proofs.Flow.EdgeClasses
import CodeImage.Proofs.Flow.Cold
import CodeImage.Proofs.Flow.Frontier
import CodeImage.Proofs.Relocation.Canonical
import CodeImage.Proofs.Flow.LoopOrder
import CodeImage.Proofs.Schedule.Readiness
import CodeImage.Proofs.Schedule.Layers
import CodeImage.Proofs.Schedule.Topological
import CodeImage.Proofs.Schedule.Growth
import CodeImage.Proofs.BitSet.Refinement
