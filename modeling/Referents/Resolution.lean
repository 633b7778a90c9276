import Referents.Cursor

/-!
# Resolving one list

A list is resolved by one visit to each of its members.  A member whose target
is null or reachable is dropped.  The others stay on the list, or, where the
list is **published**, are cleared and put in front of the pending chain.

Final references are only filtered at first.  Once their targets may be kept
alive, all that are left are published with their targets intact, and their
`next` field is linked to themselves so that they are never discovered again.
-/

namespace Referents

/-- What is left of a list, and how many members were visited and dropped. -/
structure Resolved where
  list : DiscoveredList
  visited : Nat
  dropped : Nat
deriving DecidableEq

namespace Cursor

variable {γ : Type}

/-- Repeats a step until the cursor is past the end, `fuel` times at most. -/
def repeatStep (step : Cursor → Act γ Cursor) : Nat → Cursor → Act γ Cursor
  | 0, _ => throw .endless
  | fuel + 1, c => if c.hasCurrent then step c >>= repeatStep step fuel else pure c

/-- A bound on the visits to a list: between two that drop a member, every
object is visited once at most, and every object is dropped once at most. -/
def visitBound (h : Heap) : Nat := (h.size + 2) * (h.size + 2)

/-- Visits every member of a list. -/
def visitAll (step : Cursor → Act γ Cursor) (list : DiscoveredList) : Act γ Cursor := do
  let bound ← visitBound <$> World.heap <$> get
  repeatStep step bound (start list)

/-- Visits a member: drops it if its target is null or reachable, and keeps it else. -/
def resolveMember (hooks : Hooks γ) (nullReferent publishing : Bool) (c : Cursor) :
    Act γ Cursor := do
  let c ← Act.read (c.load nullReferent)
  if c.referent.isNone then
    let c ← Act.transform c.drop
    Act.ofExcept c.skip
  else if ← c.isReferentAlive hooks then
    let c ← Act.transform c.drop
    c.keepReferent hooks
    Act.ofExcept c.skip
  else if publishing then
    Act.update c.clearReferent
    let c ← c.enqueue hooks
    Act.ofExcept c.advance
  else
    Act.ofExcept c.advance

/-- Visits a final reference: keeps its target alive, and keeps the reference. -/
def keepFinalMember (hooks : Hooks γ) (c : Cursor) : Act γ Cursor := do
  let c ← Act.read (c.load false)
  c.keepReferent hooks
  let o ← Act.ofExcept c.member
  let next ← Act.read fun h => h.next o
  Act.ofExcept (require next.isNone (.inactiveFinal o))
  Act.update fun h => h.setNext o (some o)
  let c ← c.enqueue hooks
  Act.ofExcept c.advance

end Cursor

variable {γ : Type}

/-- Resolves a list, and publishes what is left of it if `publishing`. -/
def resolveList (hooks : Hooks γ) (nullReferent publishing : Bool) (list : DiscoveredList) :
    Act γ Resolved := do
  let c ← Cursor.visitAll (Cursor.resolveMember hooks nullReferent publishing) list
  if publishing then
    c.publish hooks
    return ⟨.empty, c.visited, c.dropped⟩
  else return ⟨c.list, c.visited, c.dropped⟩

/-- Keeps the targets of final references alive, and publishes the references. -/
def keepFinalList (hooks : Hooks γ) (list : DiscoveredList) : Act γ DiscoveredList := do
  let c ← Cursor.visitAll (Cursor.keepFinalMember hooks) list
  c.publish hooks
  Act.ofExcept (require (c.dropped == 0) .droppedFinals)
  return .empty

end Referents
