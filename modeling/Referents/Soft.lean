import Referents.Config
import Referents.Heap

/-!
# When soft references are cleared

A soft reference carries the value of a shared clock at its last access.  The
least-recently-used policies clear it once the time since then exceeds an
interval, which is set up at the start of a collection from the free space.
The host can also provide a policy of its own.
-/

namespace Referents

/-- The space in a heap, in bytes. -/
structure Occupancy where
  free : Nat := 0
  used : Nat := 0
  max : Nat := 0
deriving DecidableEq

/-- What a policy can go by in an object: everything but its mark, its link on a
list or chain, and the order and number of its edges. -/
structure Sighting where
  kind : Kind
  generation : Generation
  timestamp : Int
  referent : Option Handle
  next : Option Handle
  /-- Whether an edge leads to an object. -/
  hasEdge : Handle → Bool

/-- What a policy can go by in an object of a table. -/
def Slot.sighting (s : Slot) : Sighting where
  kind := s.kind
  generation := s.generation
  timestamp := s.timestamp
  referent := s.referent.target
  next := s.next.target
  hasEdge o := s.edges.contains o

/-- What a policy can go by in a table.  Marks and the links of lists change while a
collector traces; a policy that went by them would have no one answer for a
reference in a collection. -/
def Heap.survey (h : Heap) (o : Handle) : Option Sighting := (h.slot? o).map Slot.sighting

/-- Whether a policy of the host clears a soft reference: it goes by the spaces that
it was set up with so far, by the table and by what the clock shows. -/
abbrev SoftJudge := List Occupancy → (Handle → Option Sighting) → Handle → Int → Bool

/-- How it is decided whether a soft reference is cleared. -/
inductive SoftPolicy where
  | always
  | never
  /-- Clears what has not been read for longer than `interval` milliseconds. -/
  | leastRecentlyUsed (basis : SpaceBasis) (millisPerMegabyte : Int) (interval : Int)
  /-- Leaves it to the host. -/
  | injected (judge : SoftJudge) (setups : List Occupancy)

namespace SoftPolicy

/-- A least-recently-used policy that has not been set up. -/
def lru (basis : SpaceBasis) (millisPerMegabyte : Int) : SoftPolicy :=
  .leastRecentlyUsed basis millisPerMegabyte 0

/-- The free space that a policy counts, in whole megabytes. -/
def megabytes (basis : SpaceBasis) (space : Occupancy) : Nat :=
  match basis with
  | .currentHeap => space.free / 0x100000
  | .maxHeap => (space.max - space.used) / 0x100000

/-- Sets a policy up with the space in the heap, from which the interval follows. -/
def setup (p : SoftPolicy) (space : Occupancy) : SoftPolicy :=
  match p with
  | .leastRecentlyUsed basis rate _ =>
      .leastRecentlyUsed basis rate (mulSaturating (megabytes basis space) rate)
  | .injected judge setups => .injected judge (setups ++ [space])
  | p => p

/-- The interval, where the policy has one. -/
def interval : SoftPolicy → Option Int
  | .leastRecentlyUsed _ _ i => some i
  | _ => none

/-- Whether the soft reference `o` is cleared when the clock shows `clock`. -/
def shouldClear (p : SoftPolicy) (h : Heap) (o : Handle) (clock : Int) : Except Fault Bool :=
  match p with
  | .always => .ok true
  | .never => .ok false
  | .leastRecentlyUsed _ _ interval => do
      let idle ← elapsedSince clock (← h.timestamp o)
      return interval < idle
  | .injected judge setups => .ok (judge setups h.survey o clock)

end SoftPolicy

/-- The clock that soft references are stamped with, in milliseconds. -/
structure SoftClock where
  millis : Int
deriving DecidableEq

namespace SoftClock

/-- Advances the clock to `now`, and tells whether it did; it never goes back. -/
def advanceTo (c : SoftClock) (now : Int) : Bool × SoftClock :=
  if now < c.millis then (false, c) else (true, ⟨max c.millis now⟩)

/-- Stamps a soft reference that is being read. -/
def recordAccess (c : SoftClock) (h : Heap) (o : Handle) : Except Fault Heap := do
  if (← h.timestamp o) = c.millis then return h else h.setTimestamp o c.millis

end SoftClock

end Referents
