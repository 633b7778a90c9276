import Referents.Marking.Marker
import Referents.Proofs.Execution
import Referents.Proofs.Heap.Linked
import Referents.Proofs.Hooks

/-!
# What the marker marks

An object is **reached** from some objects if edges lead to it.  The marker
keeps a queue of marked objects whose edges it has not followed; of every other
marked object the edges lead to marked objects.  When the queue is empty, what
is marked is closed under edges, and it is what was marked before together with
all that is reached from there.

* `Heap.Reaches`, `Heap.reaches_of_closed` — what is reached lies in every
  closed set around the start.
* `Marker.markAll_ok` — marking objects puts the new ones into the queue.
* `Marker.Tallied` — each marked object was put into the queue once.
* `Marker.drainFrom_ok`, `Marker.drain_ok` — following edges returns: each step
  takes one object out of the queue, and an object enters it only once.
-/

namespace Referents

namespace Heap

variable {h g : Heap} {o p : Handle} {S T : Handle → Prop}

/-- Edges lead from an object in `S` to the object. -/
inductive Reaches (h : Heap) (S : Handle → Prop) : Handle → Prop
  | base {o : Handle} : S o → Reaches h S o
  | edge {o p : Handle} : Reaches h S o → p ∈ h.edgesOf o → Reaches h S p

/-- The set is closed under edges. -/
def Closed (h : Heap) (S : Handle → Prop) : Prop := ∀ o, S o → ∀ p ∈ h.edgesOf o, S p

/-- A closed set with the start in it contains all that is reached. -/
theorem reaches_of_closed (hST : ∀ o, S o → T o) (hclosed : h.Closed T) (ho : h.Reaches S o) :
    T o := by
  induction ho with
  | base hS => exact hST _ hS
  | edge _ hp ih => exact hclosed _ ih _ hp

/-- More is reached from more. -/
theorem Reaches.mono (ho : h.Reaches S o) (hST : ∀ o, S o → T o) : h.Reaches T o :=
  reaches_of_closed (fun _ hS => .base (hST _ hS)) (fun _ hq _ hp => .edge hq hp) ho

/-- It matters only which objects one starts from. -/
theorem reaches_congr_start (hST : ∀ o, S o ↔ T o) : h.Reaches S o ↔ h.Reaches T o :=
  ⟨fun ho => ho.mono fun q => (hST q).mp, fun ho => ho.mono fun q => (hST q).mpr⟩

/-- What is reached from reached objects is reached. -/
theorem Reaches.trans (ho : h.Reaches T o) (hTS : ∀ o, T o → h.Reaches S o) : h.Reaches S o :=
  reaches_of_closed hTS (fun _ hq _ hp => .edge hq hp) ho

/-- What is reached depends on the traits only. -/
theorem reaches_congr (ht : g.traits = h.traits) : g.Reaches S o ↔ h.Reaches S o := by
  have hedges := edgesOf_congr ht
  constructor
  · exact reaches_of_closed (fun _ hS => .base hS) fun _ hq _ hp => .edge hq (hedges ▸ hp)
  · exact reaches_of_closed (fun _ hS => .base hS) fun _ hq _ hp => .edge hq (hedges.symm ▸ hp)

/-- All objects of the table. -/
def objects (h : Heap) : List Handle := (List.range h.size).filterMap Handle.ofIndex?

/-- The objects are the held handles. -/
theorem mem_objects : o ∈ h.objects ↔ h.holds o = true := by
  simp only [objects, List.mem_filterMap, List.mem_range, holds, decide_eq_true_eq]
  constructor
  · intro hcell
    obtain ⟨i, hi, hio⟩ := hcell
    rwa [Handle.ofIndex?_eq_some_iff.mp hio]
  · intro ho
    exact ⟨o.index, ho, Handle.ofIndex?_eq_some_iff.mpr rfl⟩

/-- How many objects are not marked. -/
def unmarked (h : Heap) : Nat := (h.objects.filter fun o => !h.marks o).length

/-- There are no more unmarked objects than objects. -/
theorem unmarked_le_size (h : Heap) : h.unmarked ≤ h.size := by
  have hfilter := List.length_filter_le (fun o => !h.marks o) h.objects
  have hobjects := List.length_filterMap_le Handle.ofIndex? (List.range h.size)
  rw [List.length_range] at hobjects
  exact Nat.le_trans hfilter hobjects

/-- Links do not matter to how many objects are unmarked. -/
theorem unmarked_congr (hg : h.SameObjects g) : g.unmarked = h.unmarked := by
  rw [unmarked, unmarked, hg.marks, objects, objects, hg.size]

/-- Marking an object that was not marked leaves fewer of these. -/
theorem unmarked_setMark (ho : h.holds o = true) (hm : h.marks o = false) :
    (h.setMark o).unmarked < h.unmarked := by
  have hfilter : (h.objects.filter fun p => !(h.setMark o).marks p) =
      (h.objects.filter fun p => !h.marks p).filter fun p => decide (p ≠ o) := by
    rw [List.filter_filter]
    refine List.filter_congr fun p _ => ?_
    rw [marks_setMark ho]
    by_cases hpo : p = o <;> simp [hpo]
  rw [unmarked, unmarked, objects, size_setMark, ← objects, hfilter]
  refine List.length_filter_lt_length_iff_exists.mpr ⟨o, ?_, by simp⟩
  exact List.mem_filter.mpr ⟨mem_objects.mpr ho, by simp [hm]⟩

end Heap

/-- A count below the limit does not wrap. -/
theorem wrapCount_of_lt {n : Nat} (hn : n < 2 ^ 64) : wrapCount n = n := Nat.mod_eq_of_lt hn

/-- Taking an object is counted. -/
theorem MarkQueue.counts_pop {q : MarkQueue} {o : Handle} (ho : q.pop.1 = some o) :
    q.pop.2.enqueued = q.enqueued ∧ q.pop.2.processed = wrapCount (q.processed + 1) := by
  unfold pop at ho ⊢
  split
  · next hnone => simp [hnone] at ho
  · exact ⟨rfl, rfl⟩

namespace Marker

variable {w w' w'' : World Marker} {o p : Handle} {new more objects : List Handle}
variable {E : Handle → Prop}

/-- The world `w'` is `w` after the objects `new` were marked. -/
structure Grows (w : World Marker) (new : List Handle) (w' : World Marker) : Prop where
  size : w'.heap.size = w.heap.size
  traits : w'.heap.traits = w.heap.traits
  link : w'.heap.link = w.heap.link
  pending : w'.heap.pendingHead = w.heap.pendingHead
  marks : ∀ o, w'.heap.marks o = true ↔ w.heap.marks o = true ∨ o ∈ new
  queue : w'.collector.queue.items = w.collector.queue.items ++ new
  fresh : ∀ o ∈ new, w.heap.marks o = false
  nodup : new.Nodup
  enqueued : w.collector.queue.enqueued + new.length < 2 ^ 64 →
    w'.collector.queue.enqueued = w.collector.queue.enqueued + new.length
  counted : w.collector.marked + new.length < 2 ^ 64 →
    w'.collector.marked = w.collector.marked + new.length
  processed : w'.collector.queue.processed = w.collector.queue.processed

/-- Nothing was marked. -/
theorem Grows.refl (w : World Marker) : Grows w [] w :=
  ⟨rfl, rfl, rfl, rfl, by simp, by simp, by simp, List.nodup_nil, fun _ => rfl, fun _ => rfl, rfl⟩

/-- Objects are marked in several goes, none of them twice. -/
theorem Grows.trans (h : Grows w new w') (h' : Grows w' more w'') :
    Grows w (new ++ more) w'' where
  size := h'.size.trans h.size
  traits := h'.traits.trans h.traits
  link := h'.link.trans h.link
  pending := h'.pending.trans h.pending
  marks o := by rw [h'.marks, h.marks, List.mem_append, or_assoc]
  queue := by rw [h'.queue, h.queue, List.append_assoc]
  fresh o ho := by
    rcases List.mem_append.mp ho with ho | ho
    · exact h.fresh o ho
    · by_contra hm
      have hnot := h'.fresh o ho
      rw [(h.marks o).mpr (.inl (by simpa using hm))] at hnot
      cases hnot
  nodup := by
    refine List.nodup_append.mpr ⟨h.nodup, h'.nodup, fun o ho p hp hop => ?_⟩
    have hnot := h'.fresh p hp
    rw [(h.marks p).mpr (.inr (hop ▸ ho))] at hnot
    cases hnot
  enqueued hlt := by
    rw [List.length_append] at hlt ⊢
    rw [h'.enqueued (by rw [h.enqueued (by omega)]; omega), h.enqueued (by omega), Nat.add_assoc]
  counted hlt := by
    rw [List.length_append] at hlt ⊢
    rw [h'.counted (by rw [h.counted (by omega)]; omega), h.counted (by omega), Nat.add_assoc]
  processed := h'.processed.trans h.processed

/-- Marking keeps what is held. -/
theorem Grows.holds (h : Grows w new w') (o : Handle) : w'.heap.holds o = w.heap.holds o := by
  rw [Heap.holds, Heap.holds, h.size]

/-- Marking touches no link. -/
theorem Grows.keeps (h : Grows w new w') : w.heap.Keeps w'.heap :=
  Heap.keeps_of_link h.size (Heap.kindOf_congr h.traits) h.link h.pending

/-- What is left to do: the objects in the queue, and those that may enter it. -/
def effort (w : World Marker) : Nat := w.collector.queue.items.length + w.heap.unmarked

/-- Marking an object makes it wait, if it was not marked. -/
theorem markAndPush_ok (ho : w.heap.holds o = true) :
    ∃ w' new, markAndPush o w = .ok (!w.heap.marks o) w' ∧ Grows w new w' ∧
      effort w' ≤ effort w ∧ w'.heap.marks o = true ∧ (∀ p ∈ new, p = o) := by
  have hmark := Act.transform_ok (f := fun h => h.mark o) (Heap.mark_ok ho)
  cases hm : w.heap.marks o with
  | true =>
      rw [hm, Heap.setMark_of_marks hm] at hmark
      exact ⟨w, [], bind_ok hmark, .refl w, Nat.le_refl _, hm, by simp⟩
  | false =>
      rw [hm] at hmark
      refine ⟨_, [o], (bind_ok hmark).trans ((bind_ok (modify_ok _ _)).trans rfl), ?_, ?_, ?_,
        by simp⟩
      · constructor
        case size => exact Heap.size_setMark
        case traits => exact Heap.traits_setMark
        case link => exact Heap.link_setMark
        case pending => exact Heap.pendingHead_setMark
        case marks =>
          intro p
          simp only [Heap.marks_setMark ho, List.mem_singleton]
          by_cases hpo : p = o <;> simp [hpo]
        case queue => exact MarkQueue.items_push _ _
        case fresh =>
          intro p hp
          rw [List.mem_singleton.mp hp]
          exact hm
        case nodup => simp
        case enqueued => exact wrapCount_of_lt
        case counted => exact wrapCount_of_lt
        case processed => rfl
      · have hless := Heap.unmarked_setMark ho hm
        simp only [effort, MarkQueue.items_push, List.length_append, List.length_singleton]
        omega
      · simp [Heap.marks_setMark ho]

/-- Marking several objects makes the new ones wait. -/
theorem markAll_ok (hheld : ∀ o ∈ objects, w.heap.holds o = true) :
    ∃ w' new, markAll objects w = .ok () w' ∧ Grows w new w' ∧ effort w' ≤ effort w ∧
      (∀ o ∈ objects, w'.heap.marks o = true) ∧ ∀ p ∈ new, p ∈ objects := by
  obtain ⟨w', hrun, new, hgrows, heffort, hmarked, hnew⟩ := forM_ok
    (f := fun o => discard (markAndPush o)) (l := objects)
    (fun done w' => ∃ new, Grows w new w' ∧ effort w' ≤ effort w ∧
      (∀ o ∈ done, w'.heap.marks o = true) ∧ ∀ p ∈ new, p ∈ done)
    (by
      intro done o rest w₁ hitems hmarking
      obtain ⟨new, hgrows, heffort, hmarked, hnew⟩ := hmarking
      have ho : w₁.heap.holds o = true := by
        rw [hgrows.holds]
        exact hheld o (by simp [hitems])
      obtain ⟨w₂, more, hmark, hgrows₂, heffort₂, hmarked₂, hmore⟩ := markAndPush_ok ho
      refine ⟨w₂, map_ok (fun _ => ()) hmark, new ++ more, hgrows.trans hgrows₂,
        Nat.le_trans heffort₂ heffort, fun p hp => ?_, fun p hp => ?_⟩
      · rcases List.mem_append.mp hp with hp | hp
        · exact (hgrows₂.marks p).mpr (.inl (hmarked p hp))
        · rw [List.mem_singleton.mp hp]
          exact hmarked₂
      · rcases List.mem_append.mp hp with hp | hp
        · exact List.mem_append_left _ (hnew p hp)
        · rw [hmore p hp]
          simp)
    ⟨[], .refl w, Nat.le_refl _, by simp, by simp⟩
  exact ⟨w', new, hrun, hgrows, heffort, hmarked, hnew⟩

/-- The marked objects whose edges were not followed wait in the queue, unless they
are in `E`. -/
structure MarkingOff (E : Handle → Prop) (w : World Marker) : Prop where
  edges : w.heap.EdgesHeld
  marked : ∀ o ∈ w.collector.queue.items, w.heap.marks o = true
  black : ∀ o, ¬ E o → w.heap.marks o = true → o ∉ w.collector.queue.items →
    ∀ p ∈ w.heap.edgesOf o, w.heap.marks p = true

/-- All marked objects whose edges were not followed wait in the queue. -/
abbrev Marking : World Marker → Prop := MarkingOff fun _ => False

/-- With an empty queue, what is marked is closed. -/
theorem Marking.closed (hw : Marking w) (hempty : w.collector.queue.items = []) :
    w.heap.Closed fun o => w.heap.marks o = true :=
  fun o ho p hp => hw.black o id ho (by simp [hempty]) p hp

/-- A closed set of marked objects with an empty queue: marking is over. -/
theorem Marking.of_closed (hedges : w.heap.EdgesHeld)
    (hempty : w.collector.queue.items = [])
    (hclosed : w.heap.Closed fun o => w.heap.marks o = true) : Marking w where
  edges := hedges
  marked o ho := by simp [hempty] at ho
  black o _ ho _ p hp := hclosed o ho p hp

/-- Marking more objects keeps the invariant; they wait. -/
theorem MarkingOff.grows (hw : MarkingOff E w) (hg : Grows w new w') : MarkingOff E w' where
  edges o p hp := by
    rw [Heap.edgesOf_congr hg.traits] at hp
    rw [hg.holds]
    exact hw.edges o p hp
  marked o ho := by
    rw [hg.queue] at ho
    refine (hg.marks o).mpr ((List.mem_append.mp ho).imp (hw.marked o) id)
  black o hE ho hq p hp := by
    rw [hg.queue, List.mem_append, not_or] at hq
    rw [Heap.edgesOf_congr hg.traits] at hp
    have hold := ((hg.marks o).mp ho).resolve_right hq.2
    exact (hg.marks p).mpr (.inl (hw.black o hE hold hq.1 p hp))

/-- Links do not matter to what is marked. -/
theorem MarkingOff.relink {h : Heap} (hw : MarkingOff E w) (hh : w.heap.SameObjects h) :
    MarkingOff E { w with heap := h } where
  edges o p hp := by
    rw [Heap.edgesOf_congr hh.traits] at hp
    rw [Heap.holds_congr hh.traits]
    exact hw.edges o p hp
  marked o ho := by rw [hh.marks]; exact hw.marked o ho
  black o hE ho hq p hp := by
    rw [hh.marks] at ho ⊢
    rw [Heap.edgesOf_congr hh.traits] at hp
    exact hw.black o hE ho hq p hp

/-- Taking an object out of an empty queue. -/
theorem next_of_empty (hempty : w.collector.queue.items = []) :
    next w = .ok none w := by
  have hpop : w.collector.queue.pop = (none, w.collector.queue) := by
    have hfst := MarkQueue.pop_fst w.collector.queue
    rw [hempty] at hfst
    unfold MarkQueue.pop at hfst ⊢
    split
    · rfl
    · next he => rw [he] at hfst; cases hfst
  refine (bind_ok (get_ok w)).trans ?_
  simp only [hpop]
  rfl

/-- The object `o` was taken out of the queue, where `rest` waits on. -/
structure Takes (w : World Marker) (o : Handle) (rest : List Handle) (w' : World Marker) :
    Prop where
  before : w.collector.queue.items = o :: rest
  heap : w'.heap = w.heap
  queue : w'.collector.queue.items = rest
  enqueued : w'.collector.queue.enqueued = w.collector.queue.enqueued
  counted : w'.collector.marked = w.collector.marked
  processed : w'.collector.queue.processed = wrapCount (w.collector.queue.processed + 1)

/-- Taking the first object out of the queue. -/
theorem next_of_cons {rest : List Handle} (hitems : w.collector.queue.items = o :: rest) :
    ∃ w', next w = .ok (some o) w' ∧ Takes w o rest w' := by
  have hfst : w.collector.queue.pop.1 = some o := by rw [MarkQueue.pop_fst, hitems]; rfl
  have hsnd : w.collector.queue.pop.2.items = rest := by rw [MarkQueue.items_pop, hitems]; rfl
  obtain ⟨henqueued, hprocessed⟩ := MarkQueue.counts_pop hfst
  refine ⟨{ w with collector := { w.collector with queue := w.collector.queue.pop.2 } }, ?_,
    hitems, rfl, hsnd, henqueued, rfl, hprocessed⟩
  rw [← hfst]
  rfl

/-- The object `o` was taken out of the queue, and its edges are not followed yet. -/
structure Following (E : Handle → Prop) (o : Handle) (w : World Marker) : Prop extends
    MarkingOff (fun q => q = o ∨ E q) w where
  taken : w.heap.marks o = true

/-- Taking an object out of the queue. -/
theorem MarkingOff.taken {rest : List Handle} {v : World Marker} (hw : MarkingOff E w)
    (ht : Takes w o rest v) : Following E o v ∧ effort v < effort w := by
  refine ⟨⟨⟨ht.heap ▸ hw.edges, ?_, ?_⟩, ?_⟩, ?_⟩
  · intro p hp
    rw [ht.queue] at hp
    rw [ht.heap]
    exact hw.marked p (by rw [ht.before]; exact List.mem_cons_of_mem o hp)
  · intro q hE hq hwait p hp
    rw [not_or] at hE
    rw [ht.queue] at hwait
    rw [ht.heap] at hq hp ⊢
    refine hw.black q hE.2 hq ?_ p hp
    rw [ht.before, List.mem_cons, not_or]
    exact ⟨hE.1, hwait⟩
  · rw [ht.heap]
    exact hw.marked o (by simp [ht.before])
  · have hlength : w.collector.queue.items.length = rest.length + 1 := by
      rw [ht.before, List.length_cons]
    simp only [effort, ht.heap, ht.queue]
    omega

/-- Marking more objects leaves an object to be followed. -/
theorem Following.grows (hw : Following E o w) (hg : Grows w new w') : Following E o w' :=
  ⟨hw.toMarkingOff.grows hg, (hg.marks o).mpr (.inl hw.taken)⟩

/-- Relinked objects are followed as before. -/
theorem Following.relink {h : Heap} (hw : Following E o w) (hh : w.heap.SameObjects h) :
    Following E o { w with heap := h } :=
  ⟨hw.toMarkingOff.relink hh, by rw [hh.marks]; exact hw.taken⟩

/-- Once the edges of that object are followed, the invariant holds again. -/
theorem followEdges_ok (hw : Following E o w) :
    ∃ w' new, followEdges o w = .ok () w' ∧ Grows w new w' ∧ effort w' ≤ effort w ∧
      (∀ p ∈ new, p ∈ w.heap.edgesOf o) ∧ MarkingOff E w' := by
  obtain ⟨w', new, hrun, hgrows, heffort, hall, hnew⟩ :=
    markAll_ok (show ∀ p ∈ w.heap.edgesOf o, w.heap.holds p = true from hw.edges o)
  have hw' := hw.grows hgrows
  refine ⟨w', new, (bind_ok (Act.read_ok (Heap.edges_ok (Heap.holds_of_marks hw.taken)))).trans
    hrun, hgrows, heffort, hnew, hw'.edges, hw'.marked, ?_⟩
  intro q hE hq hwait p hp
  by_cases hqo : q = o
  · rw [Heap.edgesOf_congr hgrows.traits, hqo] at hp
    exact hall p hp
  · exact hw'.black q (by simp [hqo, hE]) hq hwait p hp

/-- Since nothing was marked, the objects `seen` were taken out of the queue, and each
marked object was put into it once.  The counts say so. -/
structure Tallied (seen : List Handle) (w : World Marker) : Prop where
  nodup : (seen ++ w.collector.queue.items).Nodup
  marks : ∀ o, w.heap.marks o = true ↔ o ∈ seen ++ w.collector.queue.items
  enqueued : w.collector.queue.enqueued = (seen ++ w.collector.queue.items).length
  counted : w.collector.marked = (seen ++ w.collector.queue.items).length
  processed : w.collector.queue.processed = seen.length

/-- Before anything is marked. -/
theorem Tallied.start (hreset : w.collector = {}) (hunmarked : ∀ o, w.heap.marks o = false) :
    Tallied [] w := by
  have hitems : w.collector.queue.items = [] := by
    rw [hreset]
    rfl
  constructor
  case nodup => simp [hitems]
  case marks => simp [hitems, hunmarked]
  case enqueued => rw [hitems, hreset, List.append_nil, List.length_nil]
  case counted => rw [hitems, hreset, List.append_nil, List.length_nil]
  case processed => rw [hreset, List.length_nil]

/-- The counts still tell what was taken when more objects are marked. -/
theorem Tallied.grows {seen : List Handle} (ht : Tallied seen w) (hg : Grows w new w') :
    Tallied seen w' := by
  have hitems : seen ++ w'.collector.queue.items = seen ++ w.collector.queue.items ++ new := by
    rw [hg.queue, List.append_assoc]
  have hnodup : (seen ++ w'.collector.queue.items).Nodup := by
    rw [hitems]
    refine List.nodup_append.mpr ⟨ht.nodup, hg.nodup, fun o ho p hp hop => ?_⟩
    have hfresh := hg.fresh p hp
    rw [← hop, (ht.marks o).mpr ho] at hfresh
    cases hfresh
  have hlength := Heap.length_lt_of_nodup hnodup
  have hsum : (seen ++ w'.collector.queue.items).length =
      (seen ++ w.collector.queue.items).length + new.length := by
    rw [hitems, List.length_append]
  refine ⟨hnodup, fun o => ?_, ?_, ?_, hg.processed.trans ht.processed⟩
  · rw [hg.marks, ht.marks, hitems, List.mem_append (s := seen ++ w.collector.queue.items)]
  · rw [hg.enqueued (by rw [ht.enqueued]; omega), ht.enqueued, hsum]
  · rw [hg.counted (by rw [ht.counted]; omega), ht.counted, hsum]

/-- An object that is taken is counted. -/
theorem Tallied.takes {seen rest : List Handle} (ht : Tallied seen w) (hw : Takes w o rest w') :
    Tallied (seen ++ [o]) w' := by
  have hitems : seen ++ [o] ++ w'.collector.queue.items = seen ++ w.collector.queue.items := by
    rw [hw.queue, hw.before, List.append_assoc, List.singleton_append]
  have hlength := Heap.length_lt_of_nodup ht.nodup
  refine ⟨by rw [hitems]; exact ht.nodup, fun p => ?_, ?_, ?_, ?_⟩
  · rw [hw.heap, hitems]
    exact ht.marks p
  · rw [hw.enqueued, hitems]
    exact ht.enqueued
  · rw [hw.counted, hitems]
    exact ht.counted
  · rw [← hitems, List.length_append] at hlength
    rw [hw.processed, ht.processed, List.length_append, List.length_singleton,
      wrapCount_of_lt (by rw [List.length_append, List.length_singleton] at hlength; omega)]

/-- Links do not matter to what was marked. -/
theorem Tallied.relink {seen : List Handle} {h : Heap} (ht : Tallied seen w)
    (hh : w.heap.SameObjects h) : Tallied seen { w with heap := h } :=
  ⟨ht.nodup, fun o => by rw [hh.marks]; exact ht.marks o, ht.enqueued, ht.counted, ht.processed⟩

/-- Edges have been followed from the marked objects of `w` until nothing waited. -/
structure Drained (E : Handle → Prop) (w w' : World Marker) : Prop where
  keeps : w.heap.Keeps w'.heap
  size : w'.heap.size = w.heap.size
  traits : w'.heap.traits = w.heap.traits
  marking : MarkingOff E w'
  empty : w'.collector.queue.items = []
  grown : ∀ o, w.heap.marks o = true → w'.heap.marks o = true
  reach : ∀ o, w'.heap.marks o = true → w.heap.Reaches (fun q => w.heap.marks q = true) o

/-- Where nothing waits there is nothing to do. -/
theorem Drained.refl (hw : MarkingOff E w) (hempty : w.collector.queue.items = []) :
    Drained E w w :=
  ⟨.refl _, rfl, rfl, hw, hempty, fun _ ho => ho, fun _ ho => .base ho⟩

/-- Marking what marked objects lead to, and going on from there. -/
theorem Drained.grows (hd : Drained E w' w'') (hg : Grows w new w')
    (hnew : ∀ p ∈ new, w.heap.Reaches (fun q => w.heap.marks q = true) p) :
    Drained E w w'' where
  keeps := hg.keeps.trans hd.keeps
  size := hd.size.trans hg.size
  traits := hd.traits.trans hg.traits
  marking := hd.marking
  empty := hd.empty
  grown o ho := hd.grown o ((hg.marks o).mpr (.inl ho))
  reach o ho := by
    have hreach := (Heap.reaches_congr hg.traits).mp (hd.reach o ho)
    apply hreach.trans
    intro q hq
    rcases (hg.marks q).mp hq with hold | hq
    · exact .base hold
    · exact hnew q hq

/-- Following edges returns, and nothing waits any more. -/
theorem drainFrom_ok {fuel : Nat} (hw : MarkingOff E w) (hfuel : effort w < fuel) :
    ∃ w', drainFrom fuel w = .ok () w' ∧ Drained E w w' := by
  induction fuel generalizing w with
  | zero => omega
  | succ fuel ih =>
      cases hitems : w.collector.queue.items with
      | nil => exact ⟨w, (bind_ok (next_of_empty hitems)).trans rfl, .refl hw hitems⟩
      | cons o rest =>
          obtain ⟨v, hnext, htakes⟩ := next_of_cons hitems
          obtain ⟨hv, hless⟩ := hw.taken htakes
          obtain ⟨w₁, new, hfollow, hgrows, heffort, hnew, hw₁⟩ := followEdges_ok hv
          obtain ⟨w', hdrain, hdrained⟩ := ih hw₁ (by omega)
          have hdone : Drained E v w' := by
            apply hdrained.grows hgrows
            intro p hp
            exact .edge (.base hv.taken) (hnew p hp)
          refine ⟨w', (bind_ok hnext).trans ((bind_ok hfollow).trans hdrain), ?_⟩
          obtain ⟨keeps, size, traits, marking, empty, grown, reach⟩ := hdone
          rw [htakes.heap] at keeps size traits grown reach
          exact ⟨keeps, size, traits, marking, empty, grown, reach⟩

/-- The bound on the steps is never reached. -/
theorem effort_lt_drainBound (w : World Marker) : effort w < drainBound w := by
  have := Heap.unmarked_le_size w.heap
  have hsize : w.collector.queue.items.length = w.collector.queue.size :=
    Fifo.length_toList _
  simp only [effort, drainBound]
  omega

/-- Following all edges returns, with an empty queue. -/
theorem drain_ok (hw : MarkingOff E w) :
    ∃ w', drain w = .ok () w' ∧ Drained E w w' := by
  obtain ⟨w', hdrain, hdone⟩ := drainFrom_ok hw (effort_lt_drainBound w)
  exact ⟨w', (bind_ok (get_ok w)).trans hdrain, hdone⟩

end Marker

end Referents
