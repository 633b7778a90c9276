import Referents.Heap

/-!
# Discovered lists

A **discovered list** is a chain of references threaded through their
`discovered` fields, newest first.  Its last member links to itself, so that
the field of a listed reference is never null.  The list itself keeps its head
and its length; the length is a counter of its own, which wraps around.
-/

namespace Referents

/-- The head and the length of a discovered list. -/
structure DiscoveredList where
  headLink : Link
  length : Nat
deriving DecidableEq

namespace DiscoveredList

/-- The list without members. -/
def empty : DiscoveredList := ⟨.null, 0⟩

/-- The newest member. -/
def head (l : DiscoveredList) : Option Handle := l.headLink.target

/-- Replaces the head. -/
def setHead (l : DiscoveredList) (o : Option Handle) : DiscoveredList :=
  { l with headLink := .of o }

/-- Whether the list has no members. -/
def isEmpty (l : DiscoveredList) : Bool := l.head.isNone

/-- Replaces the length. -/
def setLength (l : DiscoveredList) (n : Nat) : DiscoveredList := { l with length := n }

/-- Adds to the length. -/
def grow (l : DiscoveredList) (n : Nat) : DiscoveredList :=
  { l with length := wrapCount (l.length + n) }

/-- Takes from the length, which must not fall below zero. -/
def shrink (l : DiscoveredList) (n : Nat) : Except Fault DiscoveredList :=
  if n ≤ l.length then .ok { l with length := l.length - n } else .error (.crash .lengthUnderflow)

/-- Makes `o` the head; the caller has linked it to the old head or to itself. -/
def pushHead (l : DiscoveredList) (o : Handle) : DiscoveredList := (l.setHead (some o)).grow 1

/-- Links `o` to the head, or to itself where there is none, and makes it the head. -/
def insert (l : DiscoveredList) (h : Heap) (o : Handle) : Except Fault (DiscoveredList × Heap) := do
  let h ← h.setDiscovered o (some (l.head.getD o))
  return (l.pushHead o, h)

/-- Makes `o` the head if the head still is `expected`, and tells whether it was. -/
def swapHead (l : DiscoveredList) (expected : Option Handle) (o : Handle) :
    Bool × DiscoveredList :=
  if l.head = expected then (true, l.pushHead o) else (false, l)

/-- Makes `o` the head, to which it is linked if that still is `expected`; `o` is
linked anew until then. -/
def swapUntil (h : Heap) (o : Handle) :
    Nat → DiscoveredList → Option Handle → Except Fault (DiscoveredList × Heap)
  | 0, _, _ => .error .endless
  | fuel + 1, l, expected =>
      match l.swapHead expected o with
      | (true, l) => .ok (l, h)
      | (false, l) => do swapUntil (← h.setDiscovered o (some (l.head.getD o))) o fuel l l.head

/-- Puts `o` on a list that several threads add to, and tells whether it is there
now: whoever fills its link first has it, and then makes it the head.  Nobody
else changes the list here, so that the head is found again on the second try. -/
def insertShared (l : DiscoveredList) (h : Heap) (o : Handle) :
    Except Fault (Bool × DiscoveredList × Heap) := do
  let (won, h) ← h.setDiscoveredIfNull o (l.head.getD o)
  if won then
    let (l, h) ← swapUntil h o 2 l l.head
    return (true, l, h)
  else return (false, l, h)

@[simp] theorem head_empty : empty.head = none := Link.target_null

@[simp] theorem head_setHead (l : DiscoveredList) (o : Option Handle) :
    (l.setHead o).head = o := Link.target_of o

@[simp] theorem head_pushHead (l : DiscoveredList) (o : Handle) :
    (l.pushHead o).head = some o := Link.target_of (some o)

@[simp] theorem swapHead_head (l : DiscoveredList) (o : Handle) :
    l.swapHead l.head o = (true, l.pushHead o) := if_pos rfl

/-- Where the link of `o` is null, the list is extended as if nobody else could. -/
theorem insertShared_eq {l : DiscoveredList} {h : Heap} {o : Handle}
    (hnull : h.discovered o = .ok none) :
    l.insertShared h o = (fun (l, h) => (true, l, h)) <$> l.insert h o := by
  unfold insertShared insert Heap.setDiscoveredIfNull
  rw [hnull]
  cases h.setDiscovered o (some (l.head.getD o)) <;>
    simp [swapUntil, bind, Except.bind, pure, Except.pure, Functor.map, Except.map]

/-- A swap succeeds exactly if the head is the expected one. -/
theorem swapHead_fst (l : DiscoveredList) (expected : Option Handle) (o : Handle) :
    (l.swapHead expected o).1 = decide (l.head = expected) := by
  unfold swapHead
  split <;> simp_all

/-- After a swap the head is the new one if the swap succeeded, and the old one else. -/
theorem head_swapHead (l : DiscoveredList) (expected : Option Handle) (o : Handle) :
    (l.swapHead expected o).2.head = if l.head = expected then some o else l.head := by
  unfold swapHead
  split
  · exact head_pushHead l o
  · rfl

end DiscoveredList

end Referents
