import VerusMimalloc.Library.Bytes
import VerusMimalloc.Library.DList
import VerusMimalloc.Library.LeadingBits
import VerusMimalloc.Library.Program
import VerusMimalloc.Library.Runs
import VerusMimalloc.Library.Simulation
import VerusMimalloc.Library.Tiling
import VerusMimalloc.Library.Tokens
import VerusMimalloc.Model.AllocFast
import VerusMimalloc.Model.AllocGeneric
import VerusMimalloc.Model.Atomics
import VerusMimalloc.Model.BinSizes
import VerusMimalloc.Model.BlockList
import VerusMimalloc.Model.Checked
import VerusMimalloc.Model.Client
import VerusMimalloc.Model.CommitMask
import VerusMimalloc.Model.CommitSegment
import VerusMimalloc.Model.Config
import VerusMimalloc.Model.Free
import VerusMimalloc.Model.Hints
import VerusMimalloc.Model.Ids
import VerusMimalloc.Model.Layout
import VerusMimalloc.Model.MaskedPtr
import VerusMimalloc.Model.Memory
import VerusMimalloc.Model.OsMemory
import VerusMimalloc.Model.Page
import VerusMimalloc.Model.PageOrg
import VerusMimalloc.Model.PageOrgInvariants
import VerusMimalloc.Model.Queues
import VerusMimalloc.Model.Segment
import VerusMimalloc.Model.System
import VerusMimalloc.Model.Tokens
import VerusMimalloc.Model.Types
import VerusMimalloc.Proof.Blocks.Accounting
import VerusMimalloc.Proof.Blocks.Lists
import VerusMimalloc.Proof.Blocks.Moves
import VerusMimalloc.Proof.Blocks.Owner
import VerusMimalloc.Proof.Blocks.Pages
import VerusMimalloc.Proof.Blocks.Relisted
import VerusMimalloc.Proof.Blocks.Remote
import VerusMimalloc.Proof.Calls
import VerusMimalloc.Proof.Commit
import VerusMimalloc.Proof.Owner.Delayed
import VerusMimalloc.Proof.Owner.Malloc
import VerusMimalloc.Proof.Owner.Release
import VerusMimalloc.Proof.Owner.Rules
import VerusMimalloc.Proof.Owner.Search
import VerusMimalloc.Proof.Owner.Spare
import VerusMimalloc.Proof.Page.Geometry
import VerusMimalloc.Proof.Page.Life
import VerusMimalloc.Proof.Page.Queues
import VerusMimalloc.Proof.Page.Wf
import VerusMimalloc.Proof.PageOrg.Declared
import VerusMimalloc.Proof.PageOrg.Layout
import VerusMimalloc.Proof.PageOrg.Links
import VerusMimalloc.Proof.PageOrg.Org
import VerusMimalloc.Proof.PageOrg.Queued
import VerusMimalloc.Proof.PageOrg.Queues
import VerusMimalloc.Proof.PageOrg.Ranges
import VerusMimalloc.Proof.Runs
import VerusMimalloc.Proof.Scripts
import VerusMimalloc.Proof.Solo.Delayed
import VerusMimalloc.Proof.Span.Abort
import VerusMimalloc.Proof.Span.Coalesce
import VerusMimalloc.Proof.Span.Create
import VerusMimalloc.Proof.Span.Find
import VerusMimalloc.Proof.Span.Layout
import VerusMimalloc.Proof.Span.Release
import VerusMimalloc.Proof.Span.Steps
import VerusMimalloc.Proof.Tokens.Blocks
import VerusMimalloc.Proof.Tokens.Delays
import VerusMimalloc.Proof.Tokens.Invariant
import VerusMimalloc.Proof.Tokens.Pages
import VerusMimalloc.Proof.Tokens.Threads
import VerusMimalloc.Result.Addresses
import VerusMimalloc.Result.Alignment
import VerusMimalloc.Result.BlockLists
import VerusMimalloc.Result.Blocks
import VerusMimalloc.Result.CommitRange
import VerusMimalloc.Result.Decommit
import VerusMimalloc.Result.Delay
import VerusMimalloc.Result.DelayedDecommit
import VerusMimalloc.Result.FreeReturns
import VerusMimalloc.Result.FullQueue
import VerusMimalloc.Result.Growth
import VerusMimalloc.Result.Hints
import VerusMimalloc.Result.Linearizable
import VerusMimalloc.Result.MaskedPtr
import VerusMimalloc.Result.Masks
import VerusMimalloc.Result.Memory.Blocks
import VerusMimalloc.Result.Memory.Calls
import VerusMimalloc.Result.Memory.Client
import VerusMimalloc.Result.Memory.Lists
import VerusMimalloc.Result.Memory.System
import VerusMimalloc.Result.Memory.Threads
import VerusMimalloc.Result.PageFree
import VerusMimalloc.Result.PageOrg
import VerusMimalloc.Result.Queues
import VerusMimalloc.Result.Retire
import VerusMimalloc.Result.Rounding
import VerusMimalloc.Result.Search
import VerusMimalloc.Result.SizeClasses
import VerusMimalloc.Result.Spans
import VerusMimalloc.Result.Tokens
