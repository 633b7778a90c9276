import Referents.Collector
import Referents.DiscoveredList

/-!
# Cursors over discovered lists

A **cursor** visits the members of a list from its head on.  At each member
its caller first loads the links and then either drops the member from the
list and skips on, or keeps it and advances.  The cursor remembers the last
kept member, so that dropping re-points one link only: the link of that member,
or the head of the list before anything is kept.

Kept members can be linked into a chain as the cursor goes.  At the end
`publish` puts the whole chain in front of the pending chain.
-/

namespace Referents

/-- A place in a discovered list. -/
structure Cursor where
  list : DiscoveredList
  /-- The last kept member. -/
  kept : Option Handle
  current : Option Handle
  /-- The loaded link of the current member. -/
  following : Option Handle
  /-- The loaded target of the current member. -/
  referent : Option Handle
  /-- The head of the list at the start. -/
  first : Option Handle
  visited : Nat
  dropped : Nat
deriving DecidableEq

namespace Cursor

/-- The cursor at the head of a list. -/
def start (list : DiscoveredList) : Cursor where
  list := list
  kept := none
  current := list.head
  following := none
  referent := none
  first := list.head
  visited := 0
  dropped := 0

/-- Whether there is a current member. -/
def hasCurrent (c : Cursor) : Bool := c.current.isSome

/-- The current member, which has to exist. -/
def member (c : Cursor) : Except Fault Handle :=
  match c.current with
  | some o => .ok o
  | none => .error (.crash .pastEnd)

/-- Loads the link and the target of the current member.  The link has to stay
in the table; so does the target, which may be null only if `nullReferent`. -/
def load (c : Cursor) (nullReferent : Bool) (h : Heap) : Except Fault Cursor := do
  let o ← c.member
  let following ← h.discovered o
  require (h.holdsOption following) (.badDiscovered o)
  let referent ← h.referent o
  let sound :=
    match referent with
    | some r => h.holds r
    | none => nullReferent
  require sound (.badReferent referent)
  return { c with following, referent }

/-- Takes the current member off the list.  Its link becomes null, and if it
was the last member the one kept before it becomes the last. -/
def drop (c : Cursor) (h : Heap) : Except Fault (Cursor × Heap) := do
  let o ← c.member
  require (h.holds o) .badMember
  let h ← h.setDiscovered o none
  let link := if c.following = some o then c.kept else c.following
  match c.kept with
  | none =>
      let list ← (c.list.setHead link).shrink 1
      return ({ c with list, dropped := c.dropped + 1 }, h)
  | some k =>
      let h ← h.setDiscovered k link
      let list ← c.list.shrink 1
      return ({ c with list, dropped := c.dropped + 1 }, h)

/-- Goes on to the next member; a list must not lead back to its head. -/
def skip (c : Cursor) : Except Fault Cursor := do
  let o ← c.member
  let current := if c.following = some o then none else c.following
  require (current.isNone || current != c.first) .cyclicList
  return { c with current, visited := c.visited + 1 }

/-- Keeps the current member and goes on to the next. -/
def advance (c : Cursor) : Except Fault Cursor :=
  { c with kept := c.current }.skip

/-- Clears the target of the current member. -/
def clearReferent (c : Cursor) (h : Heap) : Except Fault Heap := do
  h.clearReferent (← c.member)

variable {γ : Type}

/-- Whether the loaded target is strongly reachable; a null target is not. -/
def isReferentAlive (hooks : Hooks γ) (c : Cursor) : Act γ Bool :=
  match c.referent with
  | some r => hooks.isAlive r
  | none => pure false

/-- Makes the target of the current member reachable. -/
def keepReferent (hooks : Hooks γ) (c : Cursor) : Act γ Unit := do
  hooks.keepAlive ⟨← Act.ofExcept c.member, .referent⟩

/-- Links the current member to the end of the chain of kept members. -/
def enqueue (hooks : Hooks γ) (c : Cursor) : Act γ Cursor := do
  let o ← Act.ofExcept c.member
  match c.kept with
  | some k =>
      hooks.enqueue ⟨k, .discovered⟩ (some o)
      return c
  | none => return { c with list := c.list.setHead (some o) }

/-- Puts the chain of kept members in front of the pending chain. -/
def publish (hooks : Hooks γ) (c : Cursor) : Act γ Unit :=
  match c.kept with
  | none => pure ()
  | some k => do
      let old ← Act.transform fun h => .ok (h.swapPending c.list.head)
      hooks.enqueue ⟨k, .discovered⟩ old

end Cursor

end Referents
