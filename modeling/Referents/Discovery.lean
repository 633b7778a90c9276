import Referents.Processor

/-!
# Discovery

While the collector traces, it offers the references that it reaches.  An
accepted reference is put at the head of a list of its kind, and its target is
not traced.  A declined one is traced like any other object.

`declines` says which references are declined before any list is looked at;
`discover` then accepts every reference that is on no list yet.  Giving up a
discovery takes all lists apart, so that every reference can be offered again.
-/

namespace Referents

namespace Processor

/-- Starts discovery: takes a snapshot of the clock.  All lists have to be empty. -/
def enable (p : Processor) : Except Fault Processor := do
  require (!p.enabled) .nestedEnable
  p.verifyEmpty
  return { p with enabled := true, snapshot := p.clock.millis }

/-- Stops discovery. -/
def disable (p : Processor) : Processor := { p with enabled := false }

/-- Whether a final reference has been processed before. -/
def isInactive (h : Heap) (o : Handle) (k : RefKind) : Except Fault Bool :=
  if k = .final then Option.isSome <$> h.next o else .ok false

/-- Whether the target of a reference is known to be reachable. -/
def isKnownAlive (p : Processor) (h : Heap) (o : Handle) : Except Fault Bool :=
  match p.knownAlive with
  | none => .ok false
  | some alive => (fun r => r.any alive) <$> h.referent o

/-- Whether the policy keeps a soft reference. -/
def isKeptSoft (p : Processor) (h : Heap) (o : Handle) (k : RefKind) : Except Fault Bool :=
  if k = .soft then Bool.not <$> p.currentPolicy.shouldClear h o p.snapshot else .ok false

/-- Whether a reference is declined whatever the lists hold. -/
def declines (p : Processor) (h : Heap) (o : Handle) (k : RefKind) : Except Fault Bool := do
  if !p.enabled || !p.config.registerReferences then return true
  if ← isInactive h o k then return true
  if !(← p.scope.contains h o) then return true
  if ← p.isKnownAlive h o then return true
  p.isKeptSoft h o k

/-- The queue whose turn it is, after which it is the turn of the next. -/
def takeTurn (p : Processor) : Except Fault (Nat × Processor) := do
  require (!p.multiDiscovery) .turnWithWorkers
  return (p.turn, { p with turn := if p.degree ≤ p.turn + 1 then 0 else p.turn + 1 })

/-- The queue for the next reference: that of the worker, or the one whose turn
it is if several workers will process the queues, or else the first. -/
def chooseQueue (p : Processor) (worker : Option Nat) : Except Fault (Nat × Processor) :=
  if p.multiDiscovery then .ok (worker.getD 0, p)
  else if p.isMulti then p.takeTurn
  else .ok (0, p)

/-- Puts a reference at the head of a list, and tells whether it is there now; the
first member links to itself.  Only where several workers discover can another
of them have listed the reference meanwhile. -/
def pushOnto (p : Processor) (h : Heap) (o : Handle) (k : RefKind) (queue : Nat) :
    Except Fault (Bool × Processor × Heap) := do
  require (queue < p.queues) (.queueOutOfBounds queue p.queues)
  let l ← p.list k queue
  if p.multiDiscovery then
    let (listed, l, h) ← l.insertShared h o
    return (listed, p.setList k queue l, h)
  else
    require (← h.discovered o).isNone (.alreadyLinked o)
    let (l, h) ← l.insert h o
    return (true, p.setList k queue l, h)

/-- What came of an offer. -/
structure Offer where
  /-- Whether the reference counts as discovered. -/
  accepted : Bool
  processor : Processor
  heap : Heap
  sink : Sink

/-- A reference in a trace line. -/
def describe (o : Handle) (k : RefKind) : String := s!"({o.text}: {k.name})"

/-- Offers an object, which has to be a reference, under a kind. -/
def discover (p : Processor) (h : Heap) (sink : Sink) (worker : Option Nat) (o : Handle)
    (kind : Kind) : Except Fault Offer :=
  match kind with
  | none => .error (.breach (.notAReference o))
  | some k => do
      if ← p.declines h o k then
        return ⟨false, p, h, sink⟩
      let already := "Already discovered reference " ++ describe o k
      if (← h.discovered o).isSome then
        return ⟨p.config.rediscovery == .treatAsDiscovered, p, h, sink.write .trace already⟩
      else
        let (queue, p) ← p.chooseQueue worker
        let (listed, p, h) ← p.pushOnto h o k queue
        let mode := if p.multiDiscovery then "(mt) " else ""
        let line := if listed then "Discovered reference " ++ mode ++ describe o k else already
        return ⟨true, p, h, sink.write .trace line⟩

/-- Takes lists apart; returns their lengths added up. -/
def unlinkAll (h : Heap) (lists : List DiscoveredList) : Except Fault (Nat × Heap) :=
  let step := fun ((count, h) : Nat × Heap) (l : DiscoveredList) => do
    let count ← addCounts count l.length
    return (count, ← h.unlink l.head)
  lists.foldlM step (0, h)

/-- Gives up everything discovered so far. -/
def abandon (p : Processor) (h : Heap) (sink : Sink) : Except Fault (Processor × Heap × Sink) := do
  let announce := fun (sink : Sink) (k : RefKind) =>
    sink.write .trace s!"Abandoning {k.listName} discovered list"
  let sink := RefKind.all.foldl announce sink
  let (count, h) ← unlinkAll h (p.allLists.map fun (_, _, l) => l)
  let empty := PerKind.replicate (Array.replicate p.queues DiscoveredList.empty)
  let (p, sink) := { p with lists := empty }.log sink (.discoveryAbandoned count)
  return (p, h, sink)

end Processor

end Referents
