import Mathlib.Algebra.Order.Ring.Int
import Referents.Heap

/-!
# Reading a heap as functions

A heap is read through four functions: what a link field holds (`Heap.link`),
what is marked (`Heap.marks`), the traits of an object that no collection
changes (`Heap.traits`), and the head of the pending chain.  Each operation on
a held object is then an equation for each of these functions.

* `load_ok`, `store_ok` — on a held object a load returns the link, and a store
  writes it.
* `link_write_self`, `marks_write`, `traits_write` — a written link is found again,
  and nothing else changes.
* `mark_ok`, `marks_setMark` — the same for mark bits.
* `write_link` — writing what is there already changes nothing at all.
-/

namespace Referents

/-- The handle of one of the first sixteen slots. -/
def Handle.low (i : Nat) : Handle := ⟨i % 16, by omega⟩

/-- What no collection changes about an object. -/
structure Traits where
  kind : Kind
  generation : Generation
  timestamp : Int
  edges : List Handle
deriving DecidableEq

/-- The traits of an object but for its edges. -/
def Traits.bare (t : Traits) : Kind × Generation × Int := (t.kind, t.generation, t.timestamp)

/-- The traits of an object. -/
def Slot.traits (s : Slot) : Traits := ⟨s.kind, s.generation, s.timestamp, s.edges⟩

namespace Heap

variable {h : Heap} {o p : Handle} {a b : LinkAddr} {v : Option Handle}

/-- What a link field holds; nothing where there is no such object. -/
def link (h : Heap) (a : LinkAddr) : Option Handle := (h.slot? a.obj).bind fun s => s.get a.field

/-- Whether an object is marked. -/
def marks (h : Heap) (o : Handle) : Bool := (h.slot? o).any Slot.marked

/-- The traits of an object, if the table holds it. -/
def traits (h : Heap) (o : Handle) : Option Traits := (h.slot? o).map Slot.traits

/-- What an object is; nothing where there is no such object. -/
def kindOf (h : Heap) (o : Handle) : Kind := (h.traits o).bind Traits.kind

/-- The strong edges of an object. -/
def edgesOf (h : Heap) (o : Handle) : List Handle := ((h.traits o).map Traits.edges).getD []

/-- The target of a reference. -/
abbrev target (h : Heap) (o : Handle) : Option Handle := h.link ⟨o, .referent⟩

/-- What a reference links to on its list or chain. -/
abbrev following (h : Heap) (o : Handle) : Option Handle := h.link ⟨o, .discovered⟩

/-- The mark of a processed final reference. -/
abbrev nextLink (h : Heap) (o : Handle) : Option Handle := h.link ⟨o, .next⟩

/-- The heap after a store. -/
def write (h : Heap) (a : LinkAddr) (v : Option Handle) : Heap :=
  match h.slot? a.obj with
  | some s => h.put a.obj (s.set a.field v)
  | none => h

/-- The heap after an object was marked. -/
def setMark (h : Heap) (o : Handle) : Heap :=
  match h.slot? o with
  | some s => h.put o { s with marked := true }
  | none => h

/-! ### Held objects -/

/-- A handle is held exactly if it leads to a slot of the table. -/
theorem holds_iff_slot : h.holds o = true ↔ ∃ s, h.slot? o = some s := by
  rw [← Option.isSome_iff_exists, slot?_isSome_iff]
  simp [holds]

/-- A handle is held exactly if it has traits. -/
theorem holds_iff_traits : h.holds o = true ↔ (h.traits o).isSome := by
  rw [holds_iff_slot, traits, Option.isSome_map, Option.isSome_iff_exists]

/-- A link that is not null belongs to a held object. -/
theorem holds_of_link (ha : h.link a = some o) : h.holds a.obj = true := by
  cases hs : h.slot? a.obj with
  | none => simp [link, hs] at ha
  | some s => exact holds_iff_slot.mpr ⟨s, hs⟩

/-- Outside the table every link reads as null. -/
theorem link_of_not_holds (ha : ¬ h.holds a.obj = true) : h.link a = none := by
  cases hs : h.slot? a.obj with
  | none => simp [link, hs]
  | some s => exact absurd (holds_iff_slot.mpr ⟨s, hs⟩) ha

/-- An object with a referent is held. -/
theorem holds_of_target_ne_none (ho : h.target o ≠ none) : h.holds o = true := by
  obtain ⟨t, ht⟩ := Option.ne_none_iff_exists'.mp ho
  exact holds_of_link ht

/-- A marked object is held. -/
theorem holds_of_marks (hm : h.marks o = true) : h.holds o = true := by
  cases hs : h.slot? o with
  | none => simp [marks, hs] at hm
  | some s => exact holds_iff_slot.mpr ⟨s, hs⟩

/-- A reference object is held. -/
theorem holds_of_kindOf {k : RefKind} (hk : h.kindOf o = some k) : h.holds o = true := by
  cases ht : h.traits o with
  | none => simp [kindOf, ht] at hk
  | some t => exact holds_iff_traits.mpr (by simp [ht])

/-- An object whose timestamp can be read is held. -/
theorem holds_of_timestamp {s : Int} (hs : h.timestamp o = .ok s) : h.holds o = true := by
  cases hslot : h.slot? o with
  | none => simp [timestamp, slot, hslot, Functor.map, Except.map] at hs
  | some t => exact holds_iff_slot.mpr ⟨t, hslot⟩

/-- Which handles are held depends on the traits only. -/
theorem holds_congr {g : Heap} (ht : g.traits = h.traits) (o : Handle) :
    g.holds o = h.holds o := by
  rw [Bool.eq_iff_iff, holds_iff_traits, holds_iff_traits, ht]

/-- The kind of a reference depends on the traits only. -/
theorem kindOf_congr {g : Heap} (ht : g.traits = h.traits) : g.kindOf = h.kindOf := by
  funext o
  rw [kindOf, kindOf, ht]

/-- A reference in a table with the same traits was there before. -/
theorem held_of_traits {g : Heap} (ht : g.traits = h.traits) {k : RefKind}
    (hk : g.kindOf o = some k) : h.holds o = true := by
  rw [kindOf_congr ht] at hk
  exact holds_of_kindOf hk

/-- The strong edges depend on the traits only. -/
theorem edgesOf_congr {g : Heap} (ht : g.traits = h.traits) : g.edgesOf = h.edgesOf := by
  funext o
  rw [edgesOf, edgesOf, ht]

/-! ### Loads -/

/-- A load from a held object returns the link that the view shows. -/
theorem load_ok (ha : h.holds a.obj = true) : h.load a = .ok (h.link a) := by
  obtain ⟨s, hs⟩ := holds_iff_slot.mp ha
  rw [load_eq_ok hs, link, hs]
  rfl

/-- The referent of a held object is read without a fault. -/
theorem referent_ok (ho : h.holds o = true) : h.referent o = .ok (h.target o) := load_ok ho

/-- The discovered link of a held object is read without a fault. -/
theorem discovered_ok (ho : h.holds o = true) : h.discovered o = .ok (h.following o) :=
  load_ok ho

/-- The next link of a held object is read without a fault. -/
theorem next_ok (ho : h.holds o = true) : h.next o = .ok (h.nextLink o) := load_ok ho

/-- The kind of a held object is read without a fault. -/
theorem kind_ok (ho : h.holds o = true) : h.kind o = .ok (h.kindOf o) := by
  obtain ⟨s, hs⟩ := holds_iff_slot.mp ho
  simp [kind, slot_eq_ok hs, kindOf, traits, hs, Slot.traits, Functor.map, Except.map]

/-- The edges of a held object are read without a fault. -/
theorem edges_ok (ho : h.holds o = true) : h.edges o = .ok (h.edgesOf o) := by
  obtain ⟨s, hs⟩ := holds_iff_slot.mp ho
  simp [edges, slot_eq_ok hs, edgesOf, traits, hs, Slot.traits, Functor.map, Except.map]

/-- The mark of a held object is read without a fault. -/
theorem isMarked_ok (ho : h.holds o = true) : h.isMarked o = .ok (h.marks o) := by
  obtain ⟨s, hs⟩ := holds_iff_slot.mp ho
  simp [isMarked, slot_eq_ok hs, marks, hs, Functor.map, Except.map]

/-- Generation and timestamp of a held object are those of its traits. -/
theorem traits_ok (ho : h.holds o = true) : ∃ t, h.traits o = some t ∧
    h.generation o = .ok t.generation ∧ h.timestamp o = .ok t.timestamp := by
  obtain ⟨s, hs⟩ := holds_iff_slot.mp ho
  refine ⟨s.traits, by simp [traits, hs], ?_, ?_⟩
  · simp [generation, slot_eq_ok hs, Slot.traits, Functor.map, Except.map]
  · simp [timestamp, slot_eq_ok hs, Slot.traits, Functor.map, Except.map]

/-! ### All slots -/

/-- What a handle leads to is one of the slots of the table. -/
theorem mem_slots {s : Slot} (hs : h.slot? o = some s) : s ∈ h.slots.toList :=
  List.mem_filterMap.mpr ⟨o.index,
    List.mem_range.mpr (slot?_isSome_iff.mp (by rw [hs]; rfl)), hs⟩

/-- What holds of the edges of all slots is known of the edges of all objects. -/
theorem forall_edgesOf {P : Bool → Handle → Prop}
    (hslots : ∀ s ∈ h.slots.toList, ∀ q ∈ s.edges, P s.marked q) :
    ∀ o, ∀ q ∈ h.edgesOf o, P (h.marks o) q := by
  intro o q hq
  cases hs : h.slot? o with
  | none => simp [edgesOf, traits, hs] at hq
  | some s =>
      have hmem : q ∈ s.edges := by simpa [edgesOf, traits, hs, Slot.traits] using hq
      simpa [marks, hs] using hslots s (mem_slots hs) q hmem

/-- What holds of null and of a link field of all slots is known of that field of
all objects. -/
theorem forall_link {P : Option Handle → Prop} (f : LinkField) (hnull : P none)
    (hslots : ∀ s ∈ h.slots.toList, P (s.get f)) : P (h.link ⟨o, f⟩) := by
  cases hs : h.slot? o with
  | none => simpa [link, hs] using hnull
  | some s => simpa [link, hs] using hslots s (mem_slots hs)

/-- What holds of `false` and of the marks of all slots holds of the mark of every handle. -/
theorem forall_marks {P : Bool → Prop} (hno : P false)
    (hslots : ∀ s ∈ h.slots.toList, P s.marked) : P (h.marks o) := by
  cases hs : h.slot? o with
  | none => simpa [marks, hs] using hno
  | some s => simpa [marks, hs] using hslots s (mem_slots hs)

/-- What holds of the traits of all slots holds of the traits of every handle. -/
theorem forall_traits {P : Traits → Prop} (hslots : ∀ s ∈ h.slots.toList, P s.traits)
    {t : Traits} (ht : h.traits o = some t) : P t := by
  obtain ⟨s, hs, rfl⟩ := Option.map_eq_some_iff.mp ht
  exact hslots s (mem_slots hs)

/-! ### Replaced slots -/

/-- Putting back the slot that is there changes nothing. -/
theorem put_slot {s : Slot} (hs : h.slot? o = some s) : h.put o s = h := by
  have ht : h.slots.set o.index s = h.slots := by
    apply Table.eq_of_get?
    intro i
    by_cases hi : i = o.index
    · subst hi
      have hlt : o.index < h.slots.size := slot?_isSome_iff.mp (by rw [hs]; rfl)
      rw [Table.get?_set_self hlt, ← hs, slot?]
    · exact Table.get?_set_of_ne h.slots hi s
  rw [put, ht]

/-- A view of the slots changes only at a slot that is replaced. -/
theorem view_put {α : Type} (f : Option Slot → α) {s t : Slot} (hs : h.slot? o = some s) :
    f ((h.put o t).slot? p) = if p = o then f (some t) else f (h.slot? p) := by
  by_cases hp : p = o
  · subst hp
    rw [slot?_put_self hs, if_pos rfl]
  · rw [slot?_put_of_ne t hp, if_neg hp]

/-- A view that does not tell a slot from its replacement does not change. -/
theorem view_put_of_eq {α : Type} (f : Option Slot → α) {s t : Slot} (hs : h.slot? o = some s)
    (hst : f (some t) = f (some s)) : f ((h.put o t).slot? p) = f (h.slot? p) := by
  rw [view_put f hs]
  split
  · next hp => rw [hp, hs, hst]
  · rfl

/-- An object that all views show alike is the same. -/
theorem slot?_congr {g : Heap} (ht : g.traits o = h.traits o) (hm : g.marks o = h.marks o)
    (hl : ∀ f, g.link ⟨o, f⟩ = h.link ⟨o, f⟩) : g.slot? o = h.slot? o := by
  cases hg : g.slot? o with
  | none => exact (by simpa [traits, hg] using ht : h.slot? o = none).symm
  | some s =>
      obtain ⟨t, hs, heq⟩ : ∃ t, h.slot? o = some t ∧ t.traits = s.traits := by
        simpa [traits, hg] using ht.symm
      have hmarked : s.marked = t.marked := by simpa [marks, hg, hs] using hm
      have hget : ∀ f, s.get f = t.get f := fun f => by simpa [link, hg, hs] using hl f
      have hlink : ∀ {a b : Link}, a.target = b.target → a = b := fun {a b} hab => by
        rw [← Link.of_target a, hab, Link.of_target]
      have hreferent := hlink (hget .referent)
      have hdiscovered := hlink (hget .discovered)
      have hnext := hlink (hget .next)
      rw [hs]
      cases s
      cases t
      simp_all [Slot.traits]

/-! ### Stores -/

/-- A store to a held object writes the link. -/
theorem store_ok (ha : h.holds a.obj = true) : h.store a v = .ok (h.write a v) := by
  obtain ⟨s, hs⟩ := holds_iff_slot.mp ha
  rw [store, modify_eq_ok _ hs, write, hs]

/-- The referent of a held object is stored without a fault. -/
theorem setReferent_ok (ho : h.holds o = true) :
    h.setReferent o v = .ok (h.write ⟨o, .referent⟩ v) := store_ok ho

/-- The discovered link of a held object is stored without a fault. -/
theorem setDiscovered_ok (ho : h.holds o = true) :
    h.setDiscovered o v = .ok (h.write ⟨o, .discovered⟩ v) := store_ok ho

/-- The next link of a held object is stored without a fault. -/
theorem setNext_ok (ho : h.holds o = true) :
    h.setNext o v = .ok (h.write ⟨o, .next⟩ v) := store_ok ho

/-- A compare-and-swap against null on a held object succeeds exactly if nothing follows it. -/
theorem setDiscoveredIfNull_ok (ho : h.holds o = true) (p : Handle) :
    h.setDiscoveredIfNull o p = .ok (decide (h.following o = none),
      if h.following o = none then h.write ⟨o, .discovered⟩ (some p) else h) := by
  unfold setDiscoveredIfNull
  rw [discovered_ok ho]
  cases h.following o with
  | none =>
      rw [setDiscovered_ok ho]
      rfl
  | some q => rfl

/-- A write allocates nothing. -/
@[simp] theorem size_write : (h.write a v).size = h.size := by
  unfold write
  split <;> simp

/-- A write keeps what is held. -/
@[simp] theorem holds_write : (h.write a v).holds o = h.holds o := by simp [holds]

/-- A write leaves the word that the pending chain starts with. -/
@[simp] theorem pending_write : (h.write a v).pending = h.pending := by
  unfold write
  split <;> simp

/-- A write leaves the head of the pending chain. -/
@[simp] theorem pendingHead_write : (h.write a v).pendingHead = h.pendingHead := by
  simp [pendingHead]

/-- A write leaves the marks. -/
@[simp] theorem marks_write : (h.write a v).marks = h.marks := by
  funext p
  cases hs : h.slot? a.obj with
  | none => simp [write, hs]
  | some s =>
      simp only [write, hs]
      exact view_put_of_eq (Option.any Slot.marked) hs (by cases a.field <;> rfl)

/-- A write leaves the traits. -/
@[simp] theorem traits_write : (h.write a v).traits = h.traits := by
  funext p
  cases hs : h.slot? a.obj with
  | none => simp [write, hs]
  | some s =>
      simp only [write, hs]
      exact view_put_of_eq (Option.map Slot.traits) hs (by cases a.field <;> rfl)

/-- A write leaves the kinds of references. -/
@[simp] theorem kindOf_write : (h.write a v).kindOf = h.kindOf := kindOf_congr traits_write

/-- A write leaves the strong edges. -/
@[simp] theorem edgesOf_write : (h.write a v).edgesOf = h.edgesOf := edgesOf_congr traits_write

/-- A written link is found again. -/
theorem link_write_self (ha : h.holds a.obj = true) : (h.write a v).link a = v := by
  obtain ⟨s, hs⟩ := holds_iff_slot.mp ha
  simp only [write, hs, link, slot?_put_self hs, Option.bind_some, Slot.get_set_self]

/-- All other links are as before a write. -/
theorem link_write_of_ne (hb : b ≠ a) : (h.write a v).link b = h.link b := by
  cases hs : h.slot? a.obj with
  | none => simp [write, hs]
  | some s =>
      simp only [write, hs, link]
      by_cases ho : b.obj = a.obj
      · have hf : b.field ≠ a.field := fun e => hb (by cases a; cases b; simp_all)
        rw [ho, slot?_put_self hs, hs]
        exact Slot.get_set_of_ne s v hf
      · rw [slot?_put_of_ne _ ho]

/-- A write to one field of an object leaves the fields of the others. -/
@[simp] theorem link_write_of_obj_ne {f g : LinkField} (hp : p ≠ o) :
    (h.write ⟨o, f⟩ v).link ⟨p, g⟩ = h.link ⟨p, g⟩ :=
  link_write_of_ne (by simp [hp])

/-- A write to one field leaves the fields of other names. -/
@[simp] theorem link_write_of_field_ne {f g : LinkField} (hg : g ≠ f) :
    (h.write ⟨o, f⟩ v).link ⟨p, g⟩ = h.link ⟨p, g⟩ :=
  link_write_of_ne (by simp [hg])

/-- Writing what is there already changes nothing. -/
theorem write_link (ha : h.link a = v) (hv : h.holds a.obj = true) : h.write a v = h := by
  obtain ⟨s, hs⟩ := holds_iff_slot.mp hv
  have hset : s.set a.field v = s := by
    subst ha
    simp only [link, hs, Option.bind_some]
    cases a.field <;> simp [Slot.set, Slot.get]
  simp only [write, hs, hset, put_slot hs]

/-! ### Marks -/

/-- Marking a held object tells whether it was unmarked, and marks it. -/
theorem mark_ok (ho : h.holds o = true) : h.mark o = .ok (!h.marks o, h.setMark o) := by
  obtain ⟨s, hs⟩ := holds_iff_slot.mp ho
  simp [mark, slot_eq_ok hs, marks, setMark, hs, bind, Except.bind, pure, Except.pure]

/-- Marking allocates nothing. -/
@[simp] theorem size_setMark : (h.setMark o).size = h.size := by
  unfold setMark
  split <;> simp

/-- Marking keeps what is held. -/
@[simp] theorem holds_setMark : (h.setMark o).holds p = h.holds p := by simp [holds]

/-- Marking leaves the word that the pending chain starts with. -/
@[simp] theorem pending_setMark : (h.setMark o).pending = h.pending := by
  unfold setMark
  split <;> simp

/-- Marking leaves the head of the pending chain. -/
@[simp] theorem pendingHead_setMark : (h.setMark o).pendingHead = h.pendingHead := by
  simp [pendingHead]

/-- Marking an object marks it and no other. -/
theorem marks_setMark (ho : h.holds o = true) :
    (h.setMark o).marks p = if p = o then true else h.marks p := by
  obtain ⟨s, hs⟩ := holds_iff_slot.mp ho
  simp only [setMark, hs, marks, view_put (Option.any Slot.marked) hs]
  rfl

/-- Marking leaves the links. -/
@[simp] theorem link_setMark : (h.setMark o).link = h.link := by
  funext a
  cases hs : h.slot? o with
  | none => simp [setMark, hs]
  | some s =>
      simp only [setMark, hs]
      exact view_put_of_eq (fun t => t.bind fun t => t.get a.field) hs (by cases a.field <;> rfl)

/-- Marking leaves the traits. -/
@[simp] theorem traits_setMark : (h.setMark o).traits = h.traits := by
  funext p
  cases hs : h.slot? o with
  | none => simp [setMark, hs]
  | some s =>
      simp only [setMark, hs]
      exact view_put_of_eq (Option.map Slot.traits) hs rfl

/-- Marking a marked object changes nothing. -/
theorem setMark_of_marks (hm : h.marks o = true) : h.setMark o = h := by
  obtain ⟨s, hs⟩ := holds_iff_slot.mp (holds_of_marks hm)
  have hset : ({ s with marked := true } : Slot) = s := by
    have : s.marked = true := by simpa [marks, hs] using hm
    cases s
    simp_all
  simp only [setMark, hs, hset, put_slot hs]

/-- Clearing the marks clears the bit of every slot. -/
theorem slot?_clearMarks : h.clearMarks.slot? o =
    (h.slot? o).map fun s => { s with marked := false } := Table.get?_map ..

@[simp] theorem size_clearMarks : h.clearMarks.size = h.size := rfl

/-- Clearing the marks leaves the head of the pending chain. -/
@[simp] theorem pendingHead_clearMarks : h.clearMarks.pendingHead = h.pendingHead := rfl

/-- Clearing the marks leaves the links. -/
@[simp] theorem link_clearMarks : h.clearMarks.link = h.link := by
  funext a
  simp only [link, slot?_clearMarks]
  cases h.slot? a.obj with
  | none => rfl
  | some s => cases a.field <;> rfl

/-- Clearing the marks leaves the traits. -/
@[simp] theorem traits_clearMarks : h.clearMarks.traits = h.traits := by
  funext p
  simp only [traits, slot?_clearMarks]
  cases h.slot? p <;> rfl

/-- No object is marked after clearing. -/
@[simp] theorem marks_clearMarks : h.clearMarks.marks o = false := by
  simp only [marks, slot?_clearMarks]
  cases h.slot? o <;> rfl

/-! ### The pending chain -/

/-- The heap with another pending chain. -/
def withPending (h : Heap) (head : Option Handle) : Heap := { h with pending := .of head }

/-- Swapping the head of the pending chain returns the old one. -/
theorem swapPending_eq (h : Heap) (head : Option Handle) :
    h.swapPending head = (h.pendingHead, h.withPending head) := rfl

/-- The pending chain starts where it was made to start. -/
@[simp] theorem pendingHead_withPending (h : Heap) (head : Option Handle) :
    (h.withPending head).pendingHead = head := Link.target_of head

/-- Another pending head leaves the links. -/
@[simp] theorem link_withPending (h : Heap) (head : Option Handle) :
    (h.withPending head).link = h.link := rfl

@[simp] theorem marks_withPending (h : Heap) (head : Option Handle) :
    (h.withPending head).marks = h.marks := rfl

@[simp] theorem traits_withPending (h : Heap) (head : Option Handle) :
    (h.withPending head).traits = h.traits := rfl

@[simp] theorem size_withPending (h : Heap) (head : Option Handle) :
    (h.withPending head).size = h.size := rfl

@[simp] theorem holds_withPending (h : Heap) (head : Option Handle) :
    (h.withPending head).holds o = h.holds o := rfl

end Heap

end Referents
