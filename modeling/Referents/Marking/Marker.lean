import Referents.Cycle
import Referents.Marking.MarkQueue

/-!
# The marker

A marker finds what is strongly reachable: it marks objects, and follows the
edges of marked objects until nothing waits any more.  Targets of references
are no edges.  While it traces it offers the references that it meets for
discovery, and follows the target of a declined reference like an edge.

A marker serves as the collector of a processing cycle: what is marked is
alive, keeping a target alive marks it, and the edges are followed at the end.
-/

namespace Referents

/-- The state of a marker besides the mark bits of the heap. -/
structure Marker where
  queue : MarkQueue := {}
  /-- How many objects were marked since the last reset. -/
  marked : Nat := 0
deriving DecidableEq

namespace Marker

/-- Marks an object and lets it wait; tells whether it was unmarked. -/
def markAndPush (o : Handle) : Act Marker Bool := do
  let unmarked ← Act.transform fun h => h.mark o
  if unmarked then
    Act.updateCollector fun m =>
      { m with marked := wrapCount (m.marked + 1), queue := m.queue.push o }
  return unmarked

/-- Marks several objects, in order. -/
def markAll (objects : List Handle) : Act Marker Unit :=
  objects.forM fun o => discard (markAndPush o)

/-- Takes the next waiting object. -/
def next : Act Marker (Option Handle) := do
  let w ← get
  let (o, queue) := w.collector.queue.pop
  set { w with collector := { w.collector with queue } }
  return o

/-- Marks the objects that `o` has edges to. -/
def followEdges (o : Handle) : Act Marker Unit := do
  markAll (← Act.read fun h => h.edges o)

/-- A bound on how many objects are taken from the queue: those that wait, and
those that are marked meanwhile. -/
def drainBound (w : World Marker) : Nat := w.collector.queue.size + w.heap.size + 1

/-- Follows the edges of waiting objects, `fuel` of them at most. -/
def drainFrom : Nat → Act Marker Unit
  | 0 => throw .endless
  | fuel + 1 => do
      match ← next with
      | none => pure ()
      | some o => do
          followEdges o
          drainFrom fuel

/-- Follows edges until nothing waits. -/
def drain : Act Marker Unit := do drainFrom (drainBound (← get))

/-- Marks everything that can be reached from some objects. -/
def markFromRoots (roots : List Handle) : Act Marker Unit := do
  markAll roots
  drain

/-- Whether an object is marked. -/
def isMarked (o : Handle) : Act Marker Bool := Act.read fun h => h.isMarked o

/-- Marks the object in a link field. -/
def keepAlive (a : LinkAddr) : Act Marker Unit := do
  match ← Act.read fun h => h.load a with
  | none => pure ()
  | some o => discard (markAndPush o)

/-- Unmarks everything and forgets what waits. -/
def reset : Act Marker Unit :=
  modify fun w => { heap := w.heap.clearMarks, collector := {} }

/-- The marker as a collector that stores links without a barrier. -/
def hooks : Hooks Marker where
  isAlive := isMarked
  keepAlive := keepAlive
  enqueue := plainEnqueue
  complete := drain

/-- Offers a reference whose target is neither null nor marked; the target of
a declined reference is marked. -/
def offer (worker : Option Nat) (o : Handle) (k : RefKind) : Step Marker Unit := do
  match ← Step.onWorld (Act.read fun h => h.referent o) with
  | none => pure ()
  | some r =>
      if ← Step.onWorld (isMarked r) then pure ()
      else if ← Step.discover worker o (some k) then pure ()
      else Step.onWorld (discard (markAndPush r))

/-- Traces waiting objects, `fuel` of them at most. -/
def traceFrom (worker : Option Nat) : Nat → Step Marker Unit
  | 0 => throw .endless
  | fuel + 1 => do
      match ← Step.onWorld next with
      | none => pure ()
      | some o => do
          let kind ← Step.onWorld (Act.read fun h => h.kind o)
          if let some k := kind then offer worker o k
          Step.onWorld (followEdges o)
          traceFrom worker fuel

/-- Traces until nothing waits, and offers references for discovery under the
worker id `worker`. -/
def trace (worker : Option Nat) : Step Marker Unit := do
  traceFrom worker (drainBound (← get).world)

end Marker

end Referents
