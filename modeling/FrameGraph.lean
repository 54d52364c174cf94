import FrameGraph.Describe
import FrameGraph.Dot
import FrameGraph.Execution.TwoQueues
import FrameGraph.Proofs.Demands
import FrameGraph.Proofs.Merging
import FrameGraph.Proofs.Built
import FrameGraph.Proofs.Exports
import FrameGraph.Proofs.Moments
import FrameGraph.Proofs.OneQueue
import FrameGraph.Proofs.Accesses
import FrameGraph.Proofs.Independence
import FrameGraph.Proofs.Schedules
import FrameGraph.Proofs.Delivery
import FrameGraph.Proofs.Culling
import FrameGraph.Proofs.Outcomes
import FrameGraph.Proofs.Recompiling
import FrameGraph.Proofs.SharedObjects
import FrameGraph.Proofs.Redundancy
import FrameGraph.Proofs.SharedFrames
import FrameGraph.Proofs.Lifecycle
import FrameGraph.Proofs.Histories
import FrameGraph.Proofs.Retries
import FrameGraph.Proofs.Canonical
import FrameGraph.Proofs.TrueStates
import FrameGraph.Proofs.Staleness
import FrameGraph.Proofs.MergingOutcomes
import FrameGraph.Proofs.Waits
import FrameGraph.Proofs.SharedQueues
import FrameGraph.Proofs.Timelines
import FrameGraph.Proofs.SameWork
import FrameGraph.Proofs.Chains
import FrameGraph.Proofs.LeastOrder
import FrameGraph.Proofs.Differences
import FrameGraph.Proofs.Coalescing
import FrameGraph.Proofs.MergingCells
import FrameGraph.Proofs.MergingSpans
import FrameGraph.Proofs.Region.Splicing
import FrameGraph.Proofs.RangeMaps
import FrameGraph.Proofs.TrackerCalls
import FrameGraph.Proofs.ByteStates
import FrameGraph.Proofs.CellStates
import FrameGraph.Proofs.UsageOrder
import FrameGraph.Proofs.Refusals
import FrameGraph.Proofs.Statistics
import FrameGraph.Proofs.Drawing
