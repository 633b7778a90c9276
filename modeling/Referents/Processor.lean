import Referents.DiscoveredList
import Referents.Heap.Chain
import Referents.Log.Journal
import Referents.Soft

/-!
# The reference processor

A processor owns one discovered list for every kind and queue.  Only the first
`degree` queues are processed in parallel; discovery chooses among the queues
by worker or in turn.
-/

namespace Referents

/-- Which references are subject to discovery. -/
inductive Scope where
  /-- All of them. -/
  | wholeHeap
  /-- Those of one generation. -/
  | generation (g : Generation)
  /-- Those that a predicate picks. -/
  | objects (p : Handle → Bool)

/-- Whether an object is in scope. -/
def Scope.contains (s : Scope) (h : Heap) (o : Handle) : Except Fault Bool :=
  match s with
  | .wholeHeap => .ok true
  | .generation g => (fun found => found == g) <$> h.generation o
  | .objects p => .ok (p o)

/-- The state of a processor. -/
structure Processor where
  config : Config
  scope : Scope
  /-- Objects known to be reachable before they are marked. -/
  knownAlive : Option (Handle → Bool)
  /-- Whether references are being discovered. -/
  enabled : Bool
  /-- Whether discovery chooses the queue of the worker. -/
  multiDiscovery : Bool
  /-- How many queues are processed in parallel. -/
  degree : Nat
  /-- The queue whose turn it is. -/
  turn : Nat
  lists : PerKind (Array DiscoveredList)
  clock : SoftClock
  /-- The clock when discovery was enabled. -/
  snapshot : Int
  policy : SoftPolicy
  /-- Whether every soft reference is cleared, whatever `policy` says. -/
  clearAll : Bool
  journal : Journal

namespace Processor

/-- A new processor; the configuration has to be valid. -/
def create (config : Config) (scope : Scope) (clock : SoftClock) : Except Fault Processor := do
  if let .error e := config.validate then throw (.error (.ofConfig e))
  return {
    config, scope, clock
    knownAlive := none
    enabled := false
    multiDiscovery := 1 < config.discoveryDegree
    degree := config.processingDegree
    turn := 0
    lists := .replicate (Array.replicate config.queues .empty)
    snapshot := clock.millis
    policy := .lru config.softBasis config.softMillisPerMegabyte
    clearAll := false
    journal := { config := { json := config.jsonLog, verbose := config.verbose } } }

/-- Replaces the policy for soft references. -/
def withPolicy (p : Processor) (policy : SoftPolicy) : Processor :=
  { p with policy, clearAll := false }

/-! ### Queues -/

/-- The number of queues of a kind. -/
def queues (p : Processor) : Nat := p.config.queues

/-- Sets how many queues are processed in parallel, and starts the turns anew. -/
def setDegree (p : Processor) (n : Nat) : Except Fault Processor := do
  require (n ≤ p.queues) (.degreeMismatch n p.queues)
  return { p with degree := n, turn := 0 }

/-- Whether several workers may share the queues. -/
def isMulti (p : Processor) : Bool := p.config.parallelProcessing && 1 < p.degree

/-- The lists of a kind. -/
def listsOf (p : Processor) (k : RefKind) : Array DiscoveredList := p.lists.get k

/-- The list of a kind and queue, which has to exist. -/
def list (p : Processor) (k : RefKind) (queue : Nat) : Except Fault DiscoveredList :=
  match (p.listsOf k)[queue]? with
  | some l => .ok l
  | none => .error (.crash (.indexOutOfBounds (p.listsOf k).size queue))

/-- Replaces the lists of a kind. -/
def setLists (p : Processor) (k : RefKind) (lists : Array DiscoveredList) : Processor :=
  { p with lists := p.lists.set k lists }

/-- Replaces the list of a kind and queue. -/
def setList (p : Processor) (k : RefKind) (queue : Nat) (l : DiscoveredList) : Processor :=
  p.setLists k ((p.listsOf k).setIfInBounds queue l)

/-- The lengths of the lists of a kind. -/
def lengths (p : Processor) (k : RefKind) : List Nat :=
  (p.listsOf k).toList.map DiscoveredList.length

/-- How many references of a kind are on lists. -/
def total (p : Processor) (k : RefKind) : Except Fault Nat := sumCounts (p.lengths k)

/-- Every list with its kind and queue: soft, weak, final, phantom, and by queue. -/
def allLists (p : Processor) : List (RefKind × Nat × DiscoveredList) :=
  RefKind.all.flatMap fun k =>
    (p.listsOf k).toList.zipIdx.map fun (l, queue) => (k, queue, l)

/-- The name of the list at a place in `allLists`. -/
def listName (p : Processor) (place : Nat) : String :=
  match RefKind.all[place / p.queues]? with
  | some k => k.listName
  | none => "Unknown"

/-- The kinds and queues whose lists have members, with their heads. -/
def heads (p : Processor) : List (RefKind × Nat × Handle) :=
  p.allLists.filterMap fun (k, queue, l) => l.head.map fun o => (k, queue, o)

/-- Fails unless every list is empty. -/
def verifyEmpty (p : Processor) : Except Fault Unit :=
  p.allLists.zipIdx.forM fun ((_, _, l), place) =>
    require l.isEmpty (.listNotEmpty (p.listName place) place)

/-- Fails unless the lists of a kind have length zero. -/
def verifyNone (p : Processor) (k : RefKind) : Except Fault Unit := do
  let n ← p.total k
  require (n == 0) (.referencesLeft k n)

/-! ### Soft references -/

/-- The policy that discovery goes by. -/
def currentPolicy (p : Processor) : SoftPolicy := if p.clearAll then .always else p.policy

/-- Chooses the policy for the next cycle, and sets it up. -/
def setupPolicy (p : Processor) (clearAll : Bool) (space : Occupancy) : Processor :=
  if clearAll then { p with clearAll := true }
  else { p with clearAll := false, policy := p.policy.setup space }

/-! ### The journal -/

/-- Logs an event. -/
def log (p : Processor) (sink : Sink) (e : Event) : Processor × Sink :=
  let (journal, sink) := p.journal.log sink e
  ({ p with journal }, sink)

/-- Logs the lengths of the lists of a kind, where that would be seen. -/
def logLengths (p : Processor) (sink : Sink) (label : String) (k : RefKind) :
    Except Fault (Processor × Sink) := do
  if p.journal.enabledFor sink .trace then
    return p.log sink (.listCounts label (p.lengths k) (← p.total k))
  else return (p, sink)

end Processor

end Referents
