import Referents.Table
import Referents.Word

/-!
# The object table

A **heap** is a table of slots, one per allocated object, together with the
head of the **pending chain**, the references that wait to be handed out.
Slots are only ever added.  Every operation on an object that the table does
not hold fails with `Crash.indexOutOfBounds`.

* `modify_eq_ok` — an operation on a held object changes its slot and nothing
  else (`slot?_put_self`, `slot?_put_of_ne`).
* `load_store_self`, `load_store_of_ne` — a load returns what was stored last
  at that address, and a store changes no other address.
-/

namespace Referents

/-- One object. -/
structure Slot where
  kind : Kind
  generation : Generation
  referent : Link
  discovered : Link
  next : Link
  /-- Soft references: the clock at the last access. -/
  timestamp : Int
  marked : Bool
  /-- The strong edges to other objects. -/
  edges : List Handle
deriving DecidableEq

namespace Slot

/-- A new object. -/
def fresh (kind : Kind) (generation : Generation) (referent : Option Handle) : Slot where
  kind := kind
  generation := generation
  referent := .of referent
  discovered := .null
  next := .null
  timestamp := 0
  marked := false
  edges := []

/-- What a link field holds. -/
def get (s : Slot) : LinkField → Option Handle
  | .referent => s.referent.target
  | .discovered => s.discovered.target
  | .next => s.next.target

/-- Fills a link field. -/
def set (s : Slot) (f : LinkField) (o : Option Handle) : Slot :=
  match f with
  | .referent => { s with referent := .of o }
  | .discovered => { s with discovered := .of o }
  | .next => { s with next := .of o }

/-- A link that was set is got. -/
@[simp] theorem get_set_self (s : Slot) (f : LinkField) (o : Option Handle) :
    (s.set f o).get f = o := by
  cases f <;> simp [set, get]

/-- The other links of a slot are as before. -/
theorem get_set_of_ne (s : Slot) {f g : LinkField} (o : Option Handle) (h : g ≠ f) :
    (s.set f o).get g = s.get g := by
  cases f <;> cases g <;> simp_all [set, get]

end Slot

/-- The object table and the head of the pending chain. -/
structure Heap where
  slots : Table Slot
  pending : Link
deriving DecidableEq

namespace Heap

/-- The table without objects. -/
def empty : Heap := ⟨.empty, .null⟩

/-- How many bytes a slot takes: eight for each of the links and the clock
reading, thirty-two for the guarded list of edges, and eight for the rest. -/
def slotBytes : Nat := 72

/-- The table without objects, made with room for `capacity` of them.  It grows beyond that. -/
def withCapacity (capacity : Nat) : Except Fault Heap := do
  reserve capacity slotBytes
  return empty

/-- The number of objects. -/
def size (h : Heap) : Nat := h.slots.size

/-- Whether the table holds `o`. -/
def holds (h : Heap) (o : Handle) : Bool := o.index < h.size

/-- Whether `o` is null or held. -/
def holdsOption (h : Heap) : Option Handle → Bool
  | none => true
  | some o => h.holds o

/-- The slot of `o`, if the table holds it. -/
def slot? (h : Heap) (o : Handle) : Option Slot := h.slots.get? o.index

/-- The slot of an object that has to be held. -/
def slot (h : Heap) (o : Handle) : Except Fault Slot :=
  match h.slot? o with
  | some s => .ok s
  | none => .error (.crash (.indexOutOfBounds h.size o.index))

/-- Replaces the slot of `o`, if the table holds it. -/
def put (h : Heap) (o : Handle) (s : Slot) : Heap :=
  { h with slots := h.slots.set o.index s }

/-- Changes the slot of an object that has to be held. -/
def modify (h : Heap) (o : Handle) (f : Slot → Slot) : Except Fault Heap := do
  let s ← h.slot o
  return h.put o (f s)

/-- Fails unless the table holds `o`. -/
def check (h : Heap) (o : Handle) : Except Fault Unit :=
  if h.holds o then .ok () else .error (.error (.invalidHandle o.index h.size))

/-- Adds a slot at the end of the table. -/
def push (h : Heap) (s : Slot) : Except Fault (Handle × Heap) :=
  match Handle.ofIndex? h.size with
  | some o => .ok (o, { h with slots := h.slots.push s })
  | none => .error (.error .handlesExhausted)

/-- Allocates a plain object. -/
def allocate (h : Heap) (generation : Generation) : Except Fault (Handle × Heap) :=
  h.push (.fresh none generation none)

/-- Allocates a reference of the given kind to `referent`. -/
def allocateReference (h : Heap) (kind : Kind) (referent : Option Handle)
    (generation : Generation) : Except Fault (Handle × Heap) := do
  if kind.isNone then throw (.error .notAReferenceKind)
  if let some target := referent then h.check target
  h.push (.fresh kind generation referent)

/-- What an object is. -/
def kind (h : Heap) (o : Handle) : Except Fault Kind := Slot.kind <$> h.slot o

/-- The generation of an object. -/
def generation (h : Heap) (o : Handle) : Except Fault Generation := Slot.generation <$> h.slot o

/-- What a link field of an object holds. -/
def load (h : Heap) (a : LinkAddr) : Except Fault (Option Handle) :=
  (fun s => s.get a.field) <$> h.slot a.obj

/-- Fills a link field of an object. -/
def store (h : Heap) (a : LinkAddr) (value : Option Handle) : Except Fault Heap :=
  h.modify a.obj fun s => s.set a.field value

/-- The target of a reference. -/
def referent (h : Heap) (o : Handle) : Except Fault (Option Handle) := h.load ⟨o, .referent⟩

/-- Lets a reference point to `value`. -/
def setReferent (h : Heap) (o : Handle) (value : Option Handle) : Except Fault Heap :=
  h.store ⟨o, .referent⟩ value

/-- Lets a reference point to nothing. -/
def clearReferent (h : Heap) (o : Handle) : Except Fault Heap := h.setReferent o none

/-- The link of the list or chain that a reference is on. -/
def discovered (h : Heap) (o : Handle) : Except Fault (Option Handle) := h.load ⟨o, .discovered⟩

/-- Sets the link of the list or chain that a reference is on. -/
def setDiscovered (h : Heap) (o : Handle) (value : Option Handle) : Except Fault Heap :=
  h.store ⟨o, .discovered⟩ value

/-- The mark of a processed final reference. -/
def next (h : Heap) (o : Handle) : Except Fault (Option Handle) := h.load ⟨o, .next⟩

/-- Sets the mark of a processed final reference. -/
def setNext (h : Heap) (o : Handle) (value : Option Handle) : Except Fault Heap :=
  h.store ⟨o, .next⟩ value

/-- Sets the discovered link of `o` if that is null, and tells whether it was. -/
def setDiscoveredIfNull (h : Heap) (o value : Handle) : Except Fault (Bool × Heap) := do
  match ← h.discovered o with
  | some _ => return (false, h)
  | none => return (true, ← h.setDiscovered o (some value))

/-- The clock at the last access to a soft reference. -/
def timestamp (h : Heap) (o : Handle) : Except Fault Int := Slot.timestamp <$> h.slot o

/-- Stamps a soft reference. -/
def setTimestamp (h : Heap) (o : Handle) (clock : Int) : Except Fault Heap :=
  h.modify o fun s => { s with timestamp := clock }

/-- Marks an object, and tells whether it was unmarked before. -/
def mark (h : Heap) (o : Handle) : Except Fault (Bool × Heap) := do
  let s ← h.slot o
  return (!s.marked, h.put o { s with marked := true })

/-- Whether an object is marked. -/
def isMarked (h : Heap) (o : Handle) : Except Fault Bool := Slot.marked <$> h.slot o

/-- Unmarks every object. -/
def clearMarks (h : Heap) : Heap :=
  { h with slots := h.slots.map fun s => { s with marked := false } }

/-- Adds a strong edge between two objects that have to be held. -/
def addEdge (h : Heap) (source target : Handle) : Except Fault Heap := do
  h.check source
  h.check target
  h.modify source fun s => { s with edges := s.edges ++ [target] }

/-- The strong edges of an object, in the order in which they were added. -/
def edges (h : Heap) (o : Handle) : Except Fault (List Handle) := Slot.edges <$> h.slot o

/-- The head of the pending chain. -/
def pendingHead (h : Heap) : Option Handle := h.pending.target

/-- Installs another pending chain, and returns the head of the old one. -/
def swapPending (h : Heap) (head : Option Handle) : Option Handle × Heap :=
  (h.pendingHead, { h with pending := .of head })

/-- How many objects of each sort a table holds. -/
structure Census where
  objects : Nat
  references : PerKind Nat
  marked : Nat
deriving DecidableEq

/-- Counts the objects. -/
def census (h : Heap) : Census where
  objects := h.size
  references :=
    let count (k : RefKind) := h.slots.toList.countP fun s => s.kind == some k
    ⟨count .soft, count .weak, count .final, count .phantom⟩
  marked := h.slots.toList.countP Slot.marked

/-! ### Laws of the table -/

/-- A handle with a slot leads there without a fault. -/
theorem slot_eq_ok {h : Heap} {o : Handle} {s : Slot} (hs : h.slot? o = some s) :
    h.slot o = .ok s := by
  simp [slot, hs]

/-- Handles below the size have a slot. -/
theorem slot?_isSome_iff {h : Heap} {o : Handle} : (h.slot? o).isSome ↔ o.index < h.size :=
  Table.get?_isSome_iff

/-- Putting a slot in place allocates nothing. -/
@[simp] theorem size_put (h : Heap) (o : Handle) (s : Slot) : (h.put o s).size = h.size := by
  simp [put, size]

@[simp] theorem pending_put (h : Heap) (o : Handle) (s : Slot) :
    (h.put o s).pending = h.pending := rfl

/-- A slot that was put in place is found there. -/
theorem slot?_put_self {h : Heap} {o : Handle} {s t : Slot} (hs : h.slot? o = some s) :
    (h.put o t).slot? o = some t :=
  Table.get?_set_self (slot?_isSome_iff.mp (by simp [hs])) t

/-- The other slots are as before. -/
theorem slot?_put_of_ne {h : Heap} {o p : Handle} (t : Slot) (hp : p ≠ o) :
    (h.put o t).slot? p = h.slot? p :=
  Table.get?_set_of_ne h.slots (fun e => hp (Handle.ext e)) t

/-- A change of a slot is made if there is one. -/
theorem modify_eq_ok {h : Heap} {o : Handle} {s : Slot} (f : Slot → Slot)
    (hs : h.slot? o = some s) : h.modify o f = .ok (h.put o (f s)) := by
  simp [modify, slot_eq_ok hs, bind, Except.bind, pure, Except.pure]

/-- A load returns the link of the slot. -/
theorem load_eq_ok {h : Heap} {a : LinkAddr} {s : Slot} (hs : h.slot? a.obj = some s) :
    h.load a = .ok (s.get a.field) := by
  simp [load, slot_eq_ok hs, Functor.map, Except.map]

/-- A stored link is loaded again. -/
theorem load_store_self {h g : Heap} {a : LinkAddr} {v : Option Handle}
    (hg : h.store a v = .ok g) : g.load a = .ok v := by
  cases hs : h.slot? a.obj with
  | none => simp [store, modify, slot, hs, bind, Except.bind] at hg
  | some s =>
      rw [store, modify_eq_ok _ hs] at hg
      cases hg
      rw [load_eq_ok (slot?_put_self hs), Slot.get_set_self]

/-- A store to another link does not matter. -/
theorem load_store_of_ne {h g : Heap} {a b : LinkAddr} {v : Option Handle}
    (hg : h.store a v = .ok g) (hb : b ≠ a) : g.load b = h.load b := by
  cases hs : h.slot? a.obj with
  | none => simp [store, modify, slot, hs, bind, Except.bind] at hg
  | some s =>
      rw [store, modify_eq_ok _ hs] at hg
      cases hg
      by_cases ho : b.obj = a.obj
      · have hf : b.field ≠ a.field := fun e => hb (by cases a; cases b; simp_all)
        have hp : (h.put a.obj (s.set a.field v)).slot? b.obj = some (s.set a.field v) := by
          rw [ho]
          exact slot?_put_self hs
        rw [load_eq_ok hp, load_eq_ok (ho ▸ hs), Slot.get_set_of_ne _ _ hf]
      · simp [load, slot, slot?_put_of_ne _ ho]

end Heap

end Referents
