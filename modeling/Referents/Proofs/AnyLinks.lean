import Referents.Proofs.Marking
import Referents.Proofs.Unlinking

/-!
# Walks along any links

The walks that take lists and chains apart trust nothing about the links that
they read.  These may run in circles, share their ends, or lead into another
list: a walk nulls each link as it passes, so that it comes to a null link at the
latest when it comes back to an object.

* `Heap.Unlinks` — some objects lost their links, and nothing else changed.
* `Heap.unlinks_detachAll` — that is what detaching objects does.
* `Heap.walks_end_on_any_links` — both walks end on any links, and take apart all
  that the head leads to.
-/

namespace Referents

namespace Heap

variable {h g : Heap} {o : Handle} {ms : List Handle}

/-- The heap `g` is `h` with the links of the objects in `S` nulled, and with the same objects
otherwise. -/
structure Unlinks (h : Heap) (S : Handle → Prop) (g : Heap) : Prop where
  size : g.size = h.size
  unlinked : ∀ o s, S o → h.slot? o = some s → g.slot? o = some { s with discovered := .null }
  untouched : ∀ o, ¬ S o → g.slot? o = h.slot? o

theorem slot?_detachAll_of_mem (hheld : ∀ o ∈ ms, h.holds o = true) (ho : o ∈ ms) {s : Slot}
    (hs : h.slot? o = some s) :
    (h.detachAll ms).slot? o = some { s with discovered := .null } := by
  have hrelinks := relinks_detachAll h ms
  have hwritten : (h.write ⟨o, .discovered⟩ none).slot? o =
      some { s with discovered := .null } := by
    simp only [write, hs]
    exact slot?_put_self hs
  rw [← hwritten]
  refine slot?_congr (by rw [hrelinks.objects.traits, traits_write])
    (by rw [hrelinks.objects.marks, marks_write]) fun f => ?_
  by_cases hf : f = .discovered
  · subst hf
    exact (following_detachAll hheld ho).trans (link_write_self (a := ⟨o, .discovered⟩)
      (hheld o ho)).symm
  · rw [hrelinks.link ⟨o, f⟩ fun e => absurd e hf, link_write_of_field_ne hf]

theorem slot?_detachAll_of_not_mem (ho : o ∉ ms) : (h.detachAll ms).slot? o = h.slot? o := by
  have hrelinks := relinks_detachAll h ms
  exact slot?_congr (by rw [hrelinks.objects.traits]) (by rw [hrelinks.objects.marks])
    fun f => hrelinks.link ⟨o, f⟩ fun _ => ho

/-- Detaching objects unlinks them. -/
theorem unlinks_detachAll (hheld : ∀ o ∈ ms, h.holds o = true) {S : Handle → Prop}
    (hS : ∀ o, o ∈ ms ↔ S o) : h.Unlinks S (h.detachAll ms) where
  size := (relinks_detachAll h ms).objects.size
  unlinked o _ ho hs := slot?_detachAll_of_mem hheld ((hS o).mpr ho) hs
  untouched o ho := slot?_detachAll_of_not_mem fun hm => ho ((hS o).mp hm)

/-- In a table with any links, each to one of its objects, and from any head, both walks end.
All objects that the head leads to lose their links, and nothing else changes but that the
pending chain was taken.  Its walk returns each of these objects once, in the order of their
links, and then once more the one that the last of them leads back to; there is none if the
way from the head ends at null. -/
theorem walks_end_on_any_links (hlinks : h.FollowingHeld) {head : Option Handle}
    (hhead : h.holdsOption head = true) :
    (∃ g, h.unlink head = .ok g ∧ h.Unlinks (h.LeadsTo head) g ∧
      g.pendingHead = h.pendingHead) ∧
    ∃ met again g, (h.withPending head).takePending = .ok (met ++ again.toList) g ∧
      h.Unlinks (h.LeadsTo head) g ∧ g.pendingHead = none ∧
      met.Nodup ∧ (∀ o, o ∈ met ↔ h.LeadsTo head o) ∧
      met.head? = head ∧ h.Linked again met ∧ (∀ o, again = some o → o ∈ met) ∧
      (again = none ↔ head = none ∨ ∃ o, h.LeadsTo head o ∧ h.following o = none) := by
  obtain ⟨stop, ms, ht⟩ := exists_trail hlinks hhead
  constructor
  case left =>
    exact ⟨h.detachAll ms, ht.unlink_ok, unlinks_detachAll ht.held fun _ => ht.mem_iff,
      (relinks_detachAll h ms).pending⟩
  case right =>
    have hpending : (h.withPending head).Trail (h.withPending head).pendingHead stop ms := by
      rw [pendingHead_withPending]
      exact ht.withPending head
    refine ⟨ms, stop, _, hpending.takePending_ok, ?_, ?_, ht.nodup, fun _ => ht.mem_iff,
      ht.head.symm, ht.linked, ht.stop, ht.stop_eq_none_iff⟩
    · have hunlinks : (h.withPending none).Unlinks (h.LeadsTo head)
          ((h.withPending none).detachAll ms) :=
        unlinks_detachAll (h := h.withPending none) ht.held fun _ => ht.mem_iff
      exact ⟨hunlinks.size, hunlinks.unlinked, hunlinks.untouched⟩
    · exact (relinks_detachAll (h.withPending none) ms).pending.trans
        (pendingHead_withPending h none)

/-- Four weak references: the first links into a circle of the next two, and the last one to
itself. -/
def circularHeap : Heap where
  slots := (((Table.empty.push
    { Slot.fresh (some .weak) .young none with discovered := .of (some (.low 1)) }).push
    { Slot.fresh (some .weak) .young none with discovered := .of (some (.low 2)) }).push
    { Slot.fresh (some .weak) .young none with discovered := .of (some (.low 1)) }).push
    { Slot.fresh (some .weak) .young none with discovered := .of (some (.low 3)) }
  pending := .null

/-- The walks from the first reference go round the circle once. -/
theorem walks_end_in_circle : circularHeap.FollowingHeld ∧
    circularHeap.holdsOption (some (.low 0)) = true ∧
    (∃ g, circularHeap.unlink (some (.low 0)) = .ok g ∧
      circularHeap.Unlinks (circularHeap.LeadsTo (some (.low 0))) g ∧
      circularHeap.objects.map g.following = [none, none, none, some (.low 3)]) ∧
    ∃ g, (circularHeap.withPending (some (.low 0))).takePending =
        .ok [.low 0, .low 1, .low 2, .low 1] g ∧
      circularHeap.Unlinks (circularHeap.LeadsTo (some (.low 0))) g := by
  have hlinks : circularHeap.FollowingHeld := fun o =>
    forall_link (P := fun v => ∀ p, v = some p → circularHeap.holds p = true) .discovered
      (fun _ hp => nomatch hp) (by decide)
  have hhead : circularHeap.holdsOption (some (.low 0)) = true := by decide
  obtain ⟨⟨g, hunlink, hg, -⟩, met, again, g', htake, hg', -⟩ :=
    walks_end_on_any_links hlinks hhead
  obtain ⟨_, _, htake', hmet⟩ := exists_of_run (x := takePending)
    (s := circularHeap.withPending (some (.low 0)))
    (P := fun met _ => met = [.low 0, .low 1, .low 2, .low 1]) (by decide)
  rw [htake] at htake'
  cases htake'
  rw [of_decide_eq_true hmet] at htake
  refine ⟨hlinks, hhead, ⟨g, hunlink, hg, ?_⟩, g', htake, hg'⟩
  cases hunlink
  decide

end Heap

end Referents
