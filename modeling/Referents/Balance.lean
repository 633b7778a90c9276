import Referents.Processor

/-!
# Balancing queues

Only the first `n` lists of a kind are visited when it is processed in
parallel, so the references on the other lists have to move.  While at it the
first lists are evened out: afterwards none of them is longer than the
**average**, one more than the total divided by `n`.

References move in runs: the first members of a list are cut off after the
last one that moves, and put in front of another list.  The targets are tried
in turn, and a list that has reached the average is passed over.
-/

namespace Referents

/-- The heap, the lists, and the list that is filled next. -/
structure Balancing where
  heap : Heap
  lists : Array DiscoveredList
  target : Nat

namespace Balancing

/-- The list at a place, which has to exist. -/
def list (b : Balancing) (i : Nat) : Except Fault DiscoveredList :=
  match b.lists[i]? with
  | some l => .ok l
  | none => .error (.crash (.indexOutOfBounds b.lists.size i))

/-- Goes on for `count` members: the last member passed, and the link behind it. -/
def splitAfter (h : Heap) : Nat → Handle → Option Handle → Except Fault (Handle × Option Handle)
  | 0, tail, rest => .ok (tail, rest)
  | _ + 1, tail, none => .ok (tail, none)
  | count + 1, _, some o => do splitAfter h count o (← h.discovered o)

/-- Moves the first `count` members of a list, the first of them `head`, in
front of the target list. -/
def move (b : Balancing) (source count : Nat) (head : Handle) : Except Fault Balancing := do
  let src ← b.list source
  let dst ← b.list b.target
  let (tail, rest) ← splitAfter b.heap count head (some head)
  let heap ← b.heap.setDiscovered tail (some (dst.head.getD tail))
  let dst := (dst.setHead (some head)).grow count
  let src ← (src.setHead (if rest = some tail then none else rest)).shrink count
  return { b with heap, lists := (b.lists.setIfInBounds b.target dst).setIfInBounds source src }

/-- Takes from one list what exceeds the average, or everything if `all`. -/
def drain (average queues source : Nat) : Nat → Bool → Balancing → Except Fault Balancing
  | 0, _, _ => .error .endless
  | fuel + 1, all, b => do
      let src ← b.list source
      if average < src.length ∨ all then
        require (b.target < queues) .badBalanceTarget
        let dst ← b.list b.target
        if average ≤ dst.length then
          drain average queues source fuel all { b with target := (b.target + 1) % queues }
        else
          let excess := if all then src.length else src.length - average
          let count := min excess (average - dst.length)
          require (0 < count) .nothingToMove
          match src.head with
          | none => return b
          | some head =>
              let b ← b.move source count head
              let left ← b.list source
              drain average queues source fuel (all && left.length != 0) b
      else return b

/-- Takes from one list what has to move.  Every target is passed over once at
most and filled once at most, which bounds the number of steps. -/
def relieve (average queues : Nat) (b : Balancing) (source : Nat) : Except Fault Balancing := do
  let src ← b.list source
  drain average queues source (2 * queues + 2) (queues ≤ source && src.length != 0) b

end Balancing

/-- Balances lists onto the first `queues` of them. -/
def balanceLists (h : Heap) (lists : Array DiscoveredList) (queues : Nat) :
    Except Fault (Heap × Array DiscoveredList) := do
  require (0 < queues && queues ≤ lists.size) (.badBalanceDegree queues lists.size)
  let lengths := fun (lists : Array DiscoveredList) => lists.toList.map DiscoveredList.length
  let total ← sumCounts (lengths lists)
  let average ← addCounts (total / queues) 1
  let start : Balancing := { heap := h, lists, target := 0 }
  let b ← (List.range lists.size).foldlM (Balancing.relieve average queues) start
  let balanced ← sumCounts ((lengths b.lists).take queues)
  require (total == balanced) (.balanceIncomplete total balanced)
  return (b.heap, b.lists)

namespace Processor

/-- Whether the lists of a kind have to be balanced: always if balancing is
on, and else if a list would not be visited. -/
def needsBalance (p : Processor) (k : RefKind) : Bool :=
  p.config.balancing || ((p.listsOf k).toList.drop p.degree).any fun l => !l.isEmpty

/-- Balances the lists of a kind onto the active queues. -/
def balanceKind (p : Processor) (h : Heap) (sink : Sink) (k : RefKind) :
    Except Fault (Processor × Heap × Sink) := do
  let total ← p.total k
  let (h, lists) ← balanceLists h (p.listsOf k) p.degree
  let (p, sink) := (p.setLists k lists).log sink (.balanced k.name total p.degree)
  return (p, h, sink)

/-- Balances the lists of a kind before several workers share them, if that is needed. -/
def balanceIfNeeded (p : Processor) (h : Heap) (sink : Sink) (k : RefKind) :
    Except Fault (Processor × Heap × Sink) := do
  require p.isMulti .serialBalancing
  if p.needsBalance k then p.balanceKind h sink k else return (p, h, sink)

/-- Balances the lists of every kind. -/
def balanceAll (p : Processor) (h : Heap) (sink : Sink) : Except Fault (Processor × Heap × Sink) :=
  RefKind.all.foldlM (fun (p, h, sink) k => p.balanceKind h sink k) (p, h, sink)

end Processor

end Referents
