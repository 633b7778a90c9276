import Referents.Heap

/-!
# Chains of references

Discovered lists and the pending chain are threaded through the `discovered`
fields of their members.  A list ends at a member that links to itself, the
pending chain at a member whose link is null.

* `Heap.chain` — the members of a chain, for looking at it.
* `Heap.unlink` — takes a list apart from its head on.
* `Heap.takePending` — takes the pending chain apart and returns its members.

The last two destroy the links that they read, so they end on any links at
all: one step more than there are objects is always enough.
-/

namespace Referents

/-- The members of a chain, and whether the chain was followed to its end. -/
structure ChainView where
  members : List Handle
  complete : Bool
deriving DecidableEq

namespace Heap

/-- The members of a chain from `o` on, `fuel` of them at most.  The view is
cut off where the chain is longer, and after a handle that leads outside the
table. -/
def chainFrom (h : Heap) : Nat → Option Handle → ChainView
  | _, none => ⟨[], true⟩
  | 0, some _ => ⟨[], false⟩
  | fuel + 1, some o =>
      match h.slot? o with
      | none => ⟨[o], false⟩
      | some s =>
          let following := s.discovered.target
          let rest := if following = some o then ⟨[], true⟩ else h.chainFrom fuel following
          { rest with members := o :: rest.members }

/-- The members of the chain that starts at `head`.  A chain with more members
than there are objects runs in a circle, and is cut off after the first repetition. -/
def chain (h : Heap) (head : Option Handle) : ChainView := h.chainFrom (h.size + 1) head

/-- Nulls the link of `o`, and returns what it linked to. -/
def detach (h : Heap) (o : Handle) : Except Fault (Option Handle × Heap) := do
  let following ← h.discovered o
  return (following, ← h.setDiscovered o none)

/-- Takes a list apart: nulls the link of every member from `o` on, up to one
that is linked to itself or to nothing. -/
def unlinkFrom : Nat → Heap → Option Handle → Except Fault Heap
  | _, h, none => .ok h
  | 0, _, some _ => .error .endless
  | fuel + 1, h, some o => do
      let (following, h) ← h.detach o
      if following = some o then return h else unlinkFrom fuel h following

/-- Takes the list apart that starts at `head`. -/
def unlink (h : Heap) (head : Option Handle) : Except Fault Heap :=
  unlinkFrom (h.size + 2) h head

/-- Nulls the link of every object from `o` on up to the end of the chain, and
returns the objects in the order in which they were met.  Where the chain leads
outside the table, the links up to there are null already. -/
def drainFrom : Nat → Option Handle → EStateM Fault Heap (List Handle)
  | _, none, h => .ok [] h
  | 0, some _, h => .error .endless h
  | fuel + 1, some o, h =>
      match h.detach o with
      | .error f => .error f h
      | .ok (following, h) =>
          match drainFrom fuel following h with
          | .ok rest h => .ok (o :: rest) h
          | .error f h => .error f h

/-- Detaches the pending chain and takes it apart; returns its members in order. -/
def takePending : EStateM Fault Heap (List Handle) := fun h =>
  let (head, h) := h.swapPending none
  drainFrom (h.size + 2) head h

end Heap

end Referents
