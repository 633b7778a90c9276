import Referents.Delivery
import Referents.Proofs.Unlinking

/-!
# What a handler hands out

A pass of the handler takes the pending chain apart and hands out each of its
members: final references with their targets to the finalizer, the others to
the queue, both in the order of the chain.  The targets of the final references
are cleared, and no other target changes.

* `HandedOut` — what became of the handler and the heap.
* `Handler.deliverAll_ok`, `Delivery.processPending_ok` — handing out returns.
-/

namespace Referents

variable {handler handler' : Handler} {h h' g : Heap} {o : Handle} {batch ps : List Handle}

/-- Whether an object is a final reference. -/
def Heap.isFinal (h : Heap) (o : Handle) : Bool := h.kindOf o == some .final

theorem Heap.isFinal_congr (ht : g.traits = h.traits) : g.isFinal = h.isFinal := by
  funext o
  rw [Heap.isFinal, Heap.kindOf_congr ht, Heap.isFinal]

/-- The references among `batch` that go to the queue. -/
def Heap.forQueue (h : Heap) (batch : List Handle) : List Handle :=
  batch.filter fun o => !h.isFinal o

/-- The calls of the finalizer for `batch`. -/
def Heap.forFinalizer (h : Heap) (batch : List Handle) : List Finalization :=
  (batch.filter h.isFinal).map fun o => ⟨o, h.target o⟩

theorem Heap.forQueue_congr (ht : g.traits = h.traits) (batch : List Handle) :
    g.forQueue batch = h.forQueue batch := by
  rw [Heap.forQueue, Heap.isFinal_congr ht, Heap.forQueue]

theorem Heap.forFinalizer_congr (ht : g.traits = h.traits)
    (htarget : ∀ o, g.target o = h.target o) (batch : List Handle) :
    g.forFinalizer batch = h.forFinalizer batch := by
  rw [Heap.forFinalizer, Heap.isFinal_congr ht, Heap.forFinalizer]
  exact List.map_congr_left fun o _ => by rw [htarget]

/-- Every reference of a batch goes to the queue or to the finalizer, and to one of
them only. -/
theorem Heap.perm_batch (h : Heap) (batch : List Handle) :
    (h.forQueue batch ++ (h.forFinalizer batch).map Finalization.reference).Perm batch := by
  have hcalls : (h.forFinalizer batch).map Finalization.reference = batch.filter h.isFinal := by
    rw [Heap.forFinalizer, List.map_map]
    exact List.map_id' _
  rw [hcalls, Heap.forQueue]
  exact List.perm_append_comm.trans (List.filter_append_perm h.isFinal batch)

/-- The handler has handed out the references `batch` of the heap `h`. -/
structure HandedOut (handler : Handler) (h : Heap) (batch : List Handle) (handler' : Handler)
    (h' : Heap) : Prop where
  queue : handler'.queue.items = handler.queue.items ++ h.forQueue batch
  calls : handler'.finalizations.toList = handler.finalizations.toList ++ h.forFinalizer batch
  objects : h.SameObjects h'
  pending : h'.pendingHead = h.pendingHead
  link : ∀ a, a.field ≠ .referent → h'.link a = h.link a
  target : ∀ o, h'.target o = if o ∈ batch ∧ h.isFinal o = true then none else h.target o

theorem HandedOut.nil (handler : Handler) (h : Heap) : HandedOut handler h [] handler h where
  queue := by simp [Heap.forQueue]
  calls := by simp [Heap.forFinalizer]
  objects := ⟨rfl, rfl, rfl⟩
  pending := rfl
  link _ _ := rfl
  target o := by simp

namespace Handler

/-- Handing out one more reference. -/
theorem deliver_ok (hd : HandedOut handler h batch handler' h') (ho : h.holds o = true)
    (hnew : o ∉ batch) :
    ∃ handler'' h'', handler'.deliver h' o = .ok (handler'', h'') ∧
      HandedOut handler h (batch ++ [o]) handler'' h'' := by
  have ho' : h'.holds o = true := by rw [Heap.holds_congr hd.objects.traits]; exact ho
  have hkind : h'.kind o = .ok (h.kindOf o) := by
    rw [Heap.kind_ok ho', Heap.kindOf_congr hd.objects.traits]
  have htarget : h'.target o = h.target o := by rw [hd.target, if_neg fun hm => hnew hm.1]
  by_cases hfinal : h.kindOf o = some .final
  · have hisFinal : h.isFinal o = true := by simp [Heap.isFinal, hfinal]
    refine ⟨handler'.finalize ⟨o, h.target o⟩, h'.write ⟨o, .referent⟩ none, ?_, ?_⟩
    · refine (except_bind_ok hkind).trans ?_
      rw [if_pos hfinal]
      refine (except_bind_ok (Heap.referent_ok ho')).trans ?_
      rw [htarget]
      exact except_bind_ok (Heap.setReferent_ok ho')
    · constructor
      case queue => simpa [finalize, Heap.forQueue, hisFinal] using hd.queue
      case calls =>
        refine (Fifo.toList_enqueue handler'.finalizations _).trans ?_
        rw [hd.calls]
        simp [Heap.forFinalizer, hisFinal]
      case objects => exact hd.objects.trans (Heap.sameObjects_write _ _ _)
      case pending => exact Heap.pendingHead_write.trans hd.pending
      case link =>
        exact fun a ha => (Heap.link_write_of_ne fun e => ha (by rw [e])).trans (hd.link a ha)
      case target =>
        intro p
        by_cases hp : p = o
        · rw [hp, Heap.target, Heap.link_write_self ho']
          simp [hisFinal]
        · rw [Heap.target, Heap.link_write_of_obj_ne hp]
          simpa [hp] using hd.target p
  · have hisFinal : h.isFinal o = false := by simp [Heap.isFinal, hfinal]
    refine ⟨handler'.enqueue o, h', ?_, ?_⟩
    · refine (except_bind_ok hkind).trans ?_
      rw [if_neg hfinal]
      rfl
    · constructor
      case queue =>
        refine (ReferenceQueue.items_enqueue handler'.queue o).trans ?_
        rw [hd.queue]
        simp [Heap.forQueue, hisFinal]
      case calls => simpa [enqueue, Heap.forFinalizer, hisFinal] using hd.calls
      case objects => exact hd.objects
      case pending => exact hd.pending
      case link => exact hd.link
      case target =>
        intro p
        rw [hd.target]
        by_cases hp : p = o
        · simp [hp, hisFinal]
        · simp [hp]

/-- Distinct references are handed out in order. -/
theorem deliverAll_ok (handler : Handler) (hnodup : batch.Nodup)
    (hheld : ∀ o ∈ batch, h.holds o = true) :
    ∃ handler' h', handler.deliverAll h batch = .ok (handler', h') ∧
      HandedOut handler h batch handler' h' := by
  obtain ⟨⟨handler', h'⟩, hfold, hd⟩ := except_foldlM_ok (l := batch)
    (f := fun (b : Handler × Heap) o => b.1.deliver b.2 o)
    (fun done b => HandedOut handler h done b.1 b.2)
    (by
      intro done o rest s hitems hd
      obtain ⟨handler₁, h₁⟩ := s
      have hnew : o ∉ done := fun hm => by
        rw [hitems] at hnodup
        exact (List.nodup_append.mp hnodup).2.2 o hm o List.mem_cons_self rfl
      obtain ⟨handler₂, h₂, hdeliver, hd₂⟩ := deliver_ok hd (hheld o (by simp [hitems])) hnew
      exact ⟨(handler₂, h₂), hdeliver, hd₂⟩)
    (b := (handler, h)) (.nil handler h)
  exact ⟨handler', h', hfold, hd⟩

end Handler

/-- A pass takes the pending chain and hands out its members. -/
theorem Delivery.processPending_ok {d : Delivery} (hps : d.heap.Pends ps) :
    ∃ d', processPending d = .ok ps.length d' ∧
      HandedOut d.handler ((d.heap.withPending none).detachAll ps) ps d'.handler d'.heap := by
  have htake := Heap.takePending_ok hps
  unfold processPending
  rw [htake]
  cases ps with
  | nil => exact ⟨_, rfl, .nil _ _⟩
  | cons o rest =>
      have hrelinks := Heap.relinks_detachAll (d.heap.withPending none) (o :: rest)
      obtain ⟨handler', h', hdeliver, hd⟩ := Handler.deliverAll_ok d.handler
        hps.nodup (h := (d.heap.withPending none).detachAll (o :: rest)) fun p hp => by
          rw [hrelinks.holds_eq]
          exact hps.held p hp
      simp only [hdeliver]
      exact ⟨_, rfl, hd.queue, hd.calls, hd.objects, hd.pending, hd.link, hd.target⟩

end Referents
