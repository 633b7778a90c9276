import Referents.Balance
import Referents.Collector
import Referents.Config
import Referents.Cursor
import Referents.Cycle
import Referents.Decimal.Binary
import Referents.Decimal.Fixed
import Referents.Decimal.Shortest
import Referents.Degree
import Referents.Delivery
import Referents.DiscoveredList
import Referents.Discovery
import Referents.Fault
import Referents.Fifo
import Referents.Handle
import Referents.Heap
import Referents.Heap.Chain
import Referents.Json.Value
import Referents.Kind
import Referents.Log.Event
import Referents.Log.Journal
import Referents.Marking.MarkQueue
import Referents.Marking.Marker
import Referents.Pool
import Referents.Preclean
import Referents.Processing
import Referents.Processor
import Referents.Proofs.Abandoning
import Referents.Proofs.Accounting
import Referents.Proofs.AnyLinks
import Referents.Proofs.Balance
import Referents.Proofs.Callbacks
import Referents.Proofs.Collecting
import Referents.Proofs.Cursor
import Referents.Proofs.CursorScript
import Referents.Proofs.CutPoint
import Referents.Proofs.CycleOutcome
import Referents.Proofs.DanglingReferents
import Referents.Proofs.Degree
import Referents.Proofs.DegreeNesting
import Referents.Proofs.Discovery
import Referents.Proofs.DiscoveryHistory
import Referents.Proofs.EarlyDrops
import Referents.Proofs.EvenLists
import Referents.Proofs.EventWindow
import Referents.Proofs.Execution
import Referents.Proofs.HandingOut
import Referents.Proofs.Heap.Agreement
import Referents.Proofs.Heap.Growth
import Referents.Proofs.Heap.Linked
import Referents.Proofs.Heap.Trail
import Referents.Proofs.Heap.View
import Referents.Proofs.Histories
import Referents.Proofs.Hooks
import Referents.Proofs.IncrementalMarking
import Referents.Proofs.LeastMarking
import Referents.Proofs.Ledger
import Referents.Proofs.LinkWords
import Referents.Proofs.Marking
import Referents.Proofs.MarkingCollector
import Referents.Proofs.Operations
import Referents.Proofs.OrderIndependence
import Referents.Proofs.PendingReferences
import Referents.Proofs.Phases
import Referents.Proofs.Preclean
import Referents.Proofs.Processing
import Referents.Proofs.Progress
import Referents.Proofs.Recency
import Referents.Proofs.Resolution
import Referents.Proofs.Roster
import Referents.Proofs.RoundRobin
import Referents.Proofs.Settling
import Referents.Proofs.Soundness
import Referents.Proofs.ThreadCount
import Referents.Proofs.Tracing
import Referents.Proofs.Transcript
import Referents.Proofs.UnitOrder
import Referents.Proofs.Unlinking
import Referents.Proofs.WorkerScopes
import Referents.Recorder
import Referents.Resolution
import Referents.Safepoint
import Referents.Soft
import Referents.Table
import Referents.Timing.PhaseTimes
import Referents.Timing.Timer
import Referents.Word
