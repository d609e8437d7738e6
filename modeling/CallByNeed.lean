import CallByNeed.Main
import CallByNeed.Snapshot
import CallByNeed.Proofs.Engine.Advance
import CallByNeed.Proofs.Heap.Moves
import CallByNeed.Proofs.Sharing.Ownership
import CallByNeed.Proofs.Sharing
import CallByNeed.Proofs.Likeness.Data
import CallByNeed.Proofs.Likeness.Script
import CallByNeed.Proofs.Likeness.Collections
import CallByNeed.Proofs.Likeness.Binding
import CallByNeed.Proofs.Likeness.Task
import CallByNeed.Proofs.Likeness.Builtins
import CallByNeed.Proofs.Engine.Runs
import CallByNeed.Proofs.Likeness.Same
import CallByNeed.Proofs.Splicing.Match
import CallByNeed.Proofs.Splicing.Step
import CallByNeed.Proofs.Splicing
import CallByNeed.Proofs.Known.Acts
import CallByNeed.Proofs.Known.Steps
import CallByNeed.Proofs.Known.Threads
import CallByNeed.Proofs.Loading.Resolving
import CallByNeed.Proofs.Loading.Building
import CallByNeed.Proofs.Loading.Handles
import CallByNeed.Proofs.Loading
import CallByNeed.Proofs.Known.Mentions
import CallByNeed.Proofs.Rallies
import CallByNeed.Proofs.Redirects
import CallByNeed.Proofs.Engine.Returns
import CallByNeed.Proofs.Likeness.Peers
import CallByNeed.Proofs.Order.Twins
import CallByNeed.Proofs.Order.Meaning
import CallByNeed.Proofs.Order.Honours
import CallByNeed.Proofs.Order.Lasting
import CallByNeed.Proofs.Order.Explained
import CallByNeed.Proofs.Order.Answered
import CallByNeed.Proofs.Order
import CallByNeed.Proofs.Failure
import CallByNeed.Proofs.Outputs
import CallByNeed.Proofs.Safety.Script
import CallByNeed.Proofs.Safety.Data
import CallByNeed.Proofs.Safety.Binding
import CallByNeed.Proofs.Safety.Builtins
import CallByNeed.Proofs.Safety.Task
import CallByNeed.Proofs.Safety.Acts
import CallByNeed.Proofs.Safety.Sealed
import CallByNeed.Proofs.Safety.Steps
import CallByNeed.Proofs.Safety.Runners
import CallByNeed.Proofs.Safety.Threads
import CallByNeed.Proofs.Safety.Loading
import CallByNeed.Proofs.Safety
import CallByNeed.Proofs.Binding.Parameters
import CallByNeed.Proofs.Purity
import CallByNeed.Proofs.Binding.Supply
import CallByNeed.Proofs.Binding.Evaluation
import CallByNeed.Proofs.Binding.Joining
import CallByNeed.Proofs.Binding
import CallByNeed.Proofs.Loading.Checking
import CallByNeed.Proofs.Acceptance
import CallByNeed.Proofs.Reading.Values
import CallByNeed.Proofs.Keys.Order
import CallByNeed.Proofs.Keys.Trees
import CallByNeed.Proofs.Keys.Comparing
import CallByNeed.Proofs.Comparison
import CallByNeed.Proofs.Keys.Sorted
import CallByNeed.Proofs.Sorted.Data
import CallByNeed.Proofs.Sorted.Binding
import CallByNeed.Proofs.Sorted.Builtins
import CallByNeed.Proofs.Sorted.Runs
import CallByNeed.Proofs.RoundTrip
import CallByNeed.Proofs.Sorted.Programs
import CallByNeed.Proofs.KeyOrder
import CallByNeed.Proofs.Dictionaries
import CallByNeed.Proofs.Accounts.Paths
import CallByNeed.Proofs.Accounts.Threads
import CallByNeed.Proofs.Accounts
import CallByNeed.Proofs.Accounts.Lists
import CallByNeed.Proofs.Faults.Script
import CallByNeed.Proofs.Faults.Data
import CallByNeed.Proofs.Faults.Builtins
import CallByNeed.Proofs.Strictness
import CallByNeed.Proofs.Concatenation.Extents
import CallByNeed.Proofs.Concatenation.Cells
import CallByNeed.Proofs.Concatenation.Drawing
import CallByNeed.Proofs.Concatenation
import CallByNeed.Proofs.Outputs.Single
import CallByNeed.Proofs.Sequence
import CallByNeed.Proofs.Loading.Layout
import CallByNeed.Proofs.Renaming.Cells
import CallByNeed.Proofs.Renaming.Runs
import CallByNeed.Proofs.Loading.Reordered
import CallByNeed.Proofs.Loading.Permuted
import CallByNeed.Proofs.DefinitionOrder
import CallByNeed.Proofs.Inlining
import CallByNeed.Proofs.Accounts.Making
import CallByNeed.Proofs.CallSites
import CallByNeed.Proofs.Switching
import CallByNeed.Proofs.Binding.Lockstep
import CallByNeed.Proofs.Binding.Spreading
import CallByNeed.Proofs.LazySpread
import CallByNeed.Proofs.Decoding.Texts
import CallByNeed.Proofs.Decoding.Shapes
import CallByNeed.Proofs.Decoding.Nodes
import CallByNeed.Proofs.Decoding.Serializing
import CallByNeed.Proofs.Decoding.Writing
import CallByNeed.Proofs.Decoding
import CallByNeed.Proofs.Reading.Endings
import CallByNeed.Proofs.Positions.Whole
import CallByNeed.Proofs.Positions
import CallByNeed.Proofs.Writing
import CallByNeed.Proofs.Writing.Plans
import CallByNeed.Proofs.Performing.Beside
import CallByNeed.Proofs.Performing.Supply
import CallByNeed.Proofs.Performing.Turns
import CallByNeed.Proofs.Performing
import CallByNeed.Proofs.Bundles
import CallByNeed.Proofs.AllPairs
import CallByNeed.Proofs.LastCase
import CallByNeed.Proofs.Listing
import CallByNeed.Proofs.ValueOrder
import CallByNeed.Proofs.Aliases
import CallByNeed.Proofs.Dumping
import CallByNeed.Proofs.FixedPoints.Tying
import CallByNeed.Proofs.FixedPoints.Following
import CallByNeed.Proofs.FixedPoints
import CallByNeed.Proofs.FixedPoints.Doubles
