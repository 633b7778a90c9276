import Referents.Proofs.Resolution

/-!
# The callbacks of one list

Resolving a list is watched from two sides here, for a collector whose
callbacks write no link fields and may do anything else: what they are asked
and told, and which links are stored through the barrier.  Both are written to
a log beside the state of the collector.

* `resolveList_consults_in_order` — every member is visited once and in order;
  its target is asked about unless it is null, and is kept alive if it is found
  alive.
* `published_links_pass_barrier` — the barrier sees the link of every published
  reference once, with the value that it ends up with, and no other link.
-/

namespace Referents

variable {γ ε : Type} {hooks : Hooks γ} {J : World γ → Prop} {h g : Heap} {l : DiscoveredList}
variable {o : Handle} {ms ps : List Handle} {calls : List Call}

/-- The list `l` has the members `ms`, others are pending, and the targets of
the members are in the table. -/
structure Heap.Intact (h : Heap) (l : DiscoveredList) (ms ps : List Handle) : Prop where
  lists : l.Lists h ms
  pends : h.Pends ps
  apart : ∀ o ∈ ms, o ∉ ps
  targets : ∀ o ∈ ms, ∀ r ∈ h.target o, h.holds r = true

/-- The members of an intact list can be looked at. -/
theorem Heap.Intact.resolvable (hw : h.Intact l ms ps) {nullReferent : Bool}
    (hnull : ∀ o ∈ ms, h.target o = none → nullReferent = true) :
    Cursor.Resolvable h nullReferent ms := fun o ho => ⟨hw.targets o ho, hnull o ho⟩

/-- Final references with targets have held targets. -/
theorem Heap.Intact.final (hw : h.Intact l ms ps)
    (hfinal : ∀ o ∈ ms, h.target o ≠ none ∧ h.nextLink o = none) :
    ∀ o ∈ ms, ∃ r, h.target o = some r ∧ h.holds r = true := by
  intro o ho
  obtain ⟨r, hr⟩ := Option.ne_none_iff_exists'.mp (hfinal o ho).1
  exact ⟨r, hr, hw.targets o ho r hr⟩

namespace Hooks

/-- The callbacks for liveness write no link fields.  The invariant `J` of the
collector, which is not about links, makes sure that they return. -/
structure Consulting (hooks : Hooks γ) (J : World γ → Prop) : Prop where
  relink : ∀ {w} {h : Heap}, J w → w.heap.SameObjects h → J { w with heap := h }
  isAlive : ∀ {w} {r : Handle}, J w → w.heap.holds r = true →
    ∃ answer w', hooks.isAlive r w = .ok answer w' ∧ w.heap.Keeps w'.heap ∧ J w'
  keepAlive : ∀ {w} {o r : Handle}, J w → w.heap.target o = some r → w.heap.holds r = true →
    ∃ w', hooks.keepAlive ⟨o, .referent⟩ w = .ok () w' ∧ w.heap.Keeps w'.heap ∧ J w'

/-- Writes to the log beside the state of a collector. -/
def note (e : ε) : Act (γ × List ε) Unit := Act.updateCollector fun d => (d.1, d.2 ++ [e])

/-- The callbacks of a collector, with a log of what they are asked and told.
Links are stored without a barrier. -/
def consulted (hooks : Hooks γ) : Hooks (γ × List Consultation) where
  isAlive o := do
    let answer ← (hooks.beside _).isAlive o
    note (.asked o answer)
    return answer
  keepAlive a := do
    (hooks.beside _).keepAlive a
    note (.kept a)
  enqueue := plainEnqueue
  complete := pure ()

/-- The callbacks of a collector, with a log of what its barrier sees. -/
def barred (hooks : Hooks γ) : Hooks (γ × List (LinkAddr × Option Handle)) where
  isAlive := (hooks.beside _).isAlive
  keepAlive := (hooks.beside _).keepAlive
  enqueue := barrierEnqueue fun a value => note (a, value)
  complete := pure ()

/-- The collector's own invariant holds, and since the log was `log` the part
of the calls that `part` tells of has been written to it. -/
def Logged (J : World γ → Prop) (part : Call → Option ε) (log : List ε) (calls : List Call)
    (w : World (γ × List ε)) : Prop :=
  J ⟨w.heap, w.collector.1⟩ ∧ w.collector.2 = log ++ calls.filterMap part

variable {part : Call → Option ε} {log : List ε} {w : World (γ × List ε)}

/-- At the start nothing was called and nothing written. -/
theorem Logged.start (hJ : J ⟨w.heap, w.collector.1⟩) : Logged J part w.collector.2 [] w :=
  ⟨hJ, by simp⟩

/-- A call that is part of the log is written to it. -/
theorem Logged.write {call : Call} {e : ε} {v : World γ} (hI : Logged J part log calls w)
    (hv : J v) (hpart : part call = some e) :
    Logged J part log (calls ++ [call]) ⟨v.heap, (v.collector, w.collector.2 ++ [e])⟩ :=
  ⟨hv, by simp [hI.2, hpart]⟩

/-- A call that is no part of the log is not. -/
theorem Logged.skip {call : Call} {v : World γ} (hI : Logged J part log calls w) (hv : J v)
    (hpart : part call = none) :
    Logged J part log (calls ++ [call]) ⟨v.heap, (v.collector, w.collector.2)⟩ :=
  ⟨hv, by simp [hI.2, hpart]⟩

/-- Relinking objects writes nothing to the log. -/
theorem Logged.relink (hh : hooks.Consulting J) (hI : Logged J part log calls w)
    (hg : w.heap.SameObjects g) : Logged J part log calls { w with heap := g } :=
  ⟨hh.relink hI.1 hg, hI.2⟩

/-- A plain store to a held object writes its link. -/
theorem plainEnqueue_ok {w : World γ} (v : Option Handle) (ho : w.heap.holds o = true) :
    plainEnqueue ⟨o, .discovered⟩ v w =
      .ok () { w with heap := w.heap.write ⟨o, .discovered⟩ v } :=
  Act.update_ok (Heap.store_ok ho)

/-- A barrier sees the field and the value, and then the link is written. -/
theorem barrierEnqueue_note_ok {w : World (γ × List (LinkAddr × Option Handle))}
    (v : Option Handle) (ho : w.heap.holds o = true) :
    barrierEnqueue (fun a value => note (a, value)) ⟨o, .discovered⟩ v w =
      .ok () ⟨w.heap.write ⟨o, .discovered⟩ v,
        (w.collector.1, w.collector.2 ++ [(⟨o, .discovered⟩, v)])⟩ :=
  (bind_ok (plainEnqueue_ok v ho)).trans rfl

namespace Consulting

/-- With a log of consultations the hooks still answer. -/
theorem consulted_answering (hh : hooks.Consulting J) (log : List Consultation) :
    hooks.consulted.Answering (Logged J Call.consultation? log) where
  relink hI hg := hI.relink hh hg
  isAlive {_ w r} hI hr := by
    obtain ⟨answer, v, hask, hkeeps, hJ⟩ := hh.isAlive hI.1 hr
    refine ⟨answer, _, ?_, hkeeps, hI.write hJ rfl⟩
    exact (bind_ok (Act.beside_ok hask)).trans rfl

/-- With a log of consultations the hooks still keep final referents alive. -/
theorem consulted_keepingFinals (hh : hooks.Consulting J) (log : List Consultation) :
    hooks.consulted.KeepingFinals (Logged J Call.consultation? log) where
  relink hI hg := hI.relink hh hg
  store v hI ho :=
    ⟨_, plainEnqueue_ok v ho, .refl _,
      hI.skip (hh.relink hI.1 (Heap.sameObjects_write _ _ _)) rfl⟩
  complete hI := ⟨_, rfl, .refl _, hI.skip hI.1 rfl⟩
  prepare _ _ _ hI := hI
  enterUnit _ _ hI := hI
  keepAlive hI ht hr := by
    obtain ⟨v, hkeep, hkeeps, hJ⟩ := hh.keepAlive hI.1 ht hr
    refine ⟨_, ?_, hkeeps, hI.write hJ rfl⟩
    exact (bind_ok (Act.beside_ok hkeep)).trans rfl

/-- With a log of the barrier the hooks still answer. -/
theorem barred_answering (hh : hooks.Consulting J) (log : List (LinkAddr × Option Handle)) :
    hooks.barred.Answering (Logged J Call.stored? log) where
  relink hI hg := hI.relink hh hg
  isAlive hI hr := by
    obtain ⟨answer, v, hask, hkeeps, hJ⟩ := hh.isAlive hI.1 hr
    exact ⟨answer, _, Act.beside_ok hask, hkeeps, hI.skip hJ rfl⟩

/-- With a log of the barrier the hooks still keep final referents alive. -/
theorem barred_keepingFinals (hh : hooks.Consulting J) (log : List (LinkAddr × Option Handle)) :
    hooks.barred.KeepingFinals (Logged J Call.stored? log) where
  relink hI hg := hI.relink hh hg
  store v hI ho :=
    ⟨_, barrierEnqueue_note_ok v ho, .refl _,
      hI.write (hh.relink hI.1 (Heap.sameObjects_write _ _ _)) rfl⟩
  complete hI := ⟨_, rfl, .refl _, hI.skip hI.1 rfl⟩
  prepare _ _ _ hI := hI
  enterUnit _ _ hI := hI
  keepAlive hI ht hr := by
    obtain ⟨v, hkeep, hkeeps, hJ⟩ := hh.keepAlive hI.1 ht hr
    exact ⟨_, Act.beside_ok hkeep, hkeeps, hI.skip hJ rfl⟩

end Consulting

end Hooks

/-! ### A collector that reaches further

What this collector finds alive depends on what it has kept alive before. -/

/-- The state is what is reachable so far; keeping an object alive reaches along its edges. -/
def Hooks.reaching : Hooks (List Handle) where
  isAlive o := do return decide (o ∈ (← get).collector)
  keepAlive a := modify fun w =>
    { w with collector := w.collector ++ (w.heap.link a).elim [] w.heap.edgesOf }
  enqueue := plainEnqueue
  complete := pure ()

/-- The far-reaching collector writes no link when it is consulted. -/
theorem Hooks.reaching_consulting : reaching.Consulting fun _ => True where
  relink _ _ := trivial
  isAlive _ _ := ⟨_, _, rfl, .refl _, trivial⟩
  keepAlive _ _ _ := ⟨_, rfl, .refl _, trivial⟩

/-- A table with two lists and a pending chain.  On the list from the object 3 on
members with a dead target, with a null one and with such that are reachable at
once or by and by stand in turns; the list from the object 9 on has final
references; the object 11 is pending. -/
def motleyHeap : Heap where
  slots := ((((((((((((Table.empty.push
    { Slot.fresh none .young none with edges := [.low 1] }).push
    (.fresh none .young none)).push
    (.fresh none .young none)).push
    { Slot.fresh (some .weak) .young (some (.low 2)) with discovered := .of (some (.low 4)) }).push
    { Slot.fresh (some .weak) .young (some (.low 0)) with discovered := .of (some (.low 5)) }).push
    { Slot.fresh (some .weak) .young none with discovered := .of (some (.low 6)) }).push
    { Slot.fresh (some .weak) .young (some (.low 1)) with discovered := .of (some (.low 7)) }).push
    { Slot.fresh (some .weak) .young (some (.low 2)) with discovered := .of (some (.low 8)) }).push
    { Slot.fresh (some .weak) .young (some (.low 0)) with discovered := .of (some (.low 8)) }).push
    { Slot.fresh (some .final) .young (some (.low 2)) with
      discovered := .of (some (.low 10)) }).push
    { Slot.fresh (some .final) .young (some (.low 0)) with
      discovered := .of (some (.low 10)) }).push
    (.fresh (some .weak) .young none))
  pending := .of (some (.low 11))

/-- The list of weak references. -/
def motleyWeak : DiscoveredList := ⟨.of (some (.low 3)), 6⟩

/-- The list of final references. -/
def motleyFinal : DiscoveredList := ⟨.of (some (.low 9)), 2⟩

/-- The motley list of weak references is intact. -/
theorem motleyWeak_intact :
    motleyHeap.Intact motleyWeak [.low 3, .low 4, .low 5, .low 6, .low 7, .low 8] [.low 11] where
  lists := ⟨by decide, by decide, by decide, by decide, by decide⟩
  pends := ⟨by decide, by decide, by decide, by decide⟩
  apart := by decide
  targets := by decide

/-- The list of final references is intact. -/
theorem motleyFinal_intact : motleyHeap.Intact motleyFinal [.low 9, .low 10] [.low 11] where
  lists := ⟨by decide, by decide, by decide, by decide, by decide⟩
  pends := ⟨by decide, by decide, by decide, by decide⟩
  apart := by decide
  targets := by decide

/-! ### What is asked and told -/

/-- Resolving a list asks about every target but null, once and in the order of
the list, and keeps alive what it finds alive; it drops these members and those
without a target.  Keeping final references alive keeps every target alive. -/
theorem resolveList_consults_in_order (hh : hooks.Consulting J)
    {w : World (γ × List Consultation)} (hw : w.heap.Intact l ms ps)
    (hJ : J ⟨w.heap, w.collector.1⟩) :
    (∀ nullReferent publishing,
      (∀ o ∈ ms, w.heap.target o = none → nullReferent = true) →
      ∃ l' w' kept,
        resolveList hooks.consulted nullReferent publishing l w =
          .ok ⟨l', ms.length, ms.length - kept.length⟩ w' ∧
        kept.Sublist ms ∧ (∀ o ∈ kept, w.heap.target o ≠ none) ∧
        w'.collector.2 = w.collector.2 ++
          ms.flatMap (fun o => w.heap.consultations o (decide (o ∈ kept))) ∧
        l'.Lists w'.heap (if publishing then [] else kept) ∧
        w'.heap.Pends ((if publishing then kept else []) ++ ps) ∧
        (∀ o ∈ ms, o ∉ kept → w'.heap.following o = none) ∧
        ∀ o, w.heap.holds o = true →
          w'.heap.target o =
            (if publishing = true ∧ o ∈ kept then none else w.heap.target o) ∧
          w'.heap.nextLink o = w.heap.nextLink o) ∧
    ((∀ o ∈ ms, w.heap.target o ≠ none ∧ w.heap.nextLink o = none) →
      ∃ w', keepFinalList hooks.consulted l w = .ok .empty w' ∧
        w'.collector.2 = w.collector.2 ++ ms.map (fun o => .kept ⟨o, .referent⟩) ∧
        w'.heap.Pends (ms ++ ps) ∧
        ∀ o, w.heap.holds o = true → w'.heap.target o = w.heap.target o ∧
          w'.heap.nextLink o = if o ∈ ms then some o else w.heap.nextLink o) := by
  have hkeeping := hh.consulted_keepingFinals w.collector.2
  have hnodup := hw.lists.nodup
  constructor
  · intro nullReferent publishing hnull
    obtain ⟨l', w', kept, calls, hrun, hsub, hlists, hpends, hgone, hv, htold, hI⟩ :=
      resolveList_ok (hkeeping.resolving (hh.consulted_answering w.collector.2)) publishing
        hw.lists (hw.resolvable hnull) hw.pends hw.apart (Hooks.Logged.start hJ)
    have hlog := htold.consultations
      (fun o spared said (ha : Asked w.heap true o spared said) => ha.consultations) hnodup
    refine ⟨l', w', kept, hrun, hsub, fun o ho => ?_, ?_, hlists, hpends, hgone,
      fun o ho => ⟨hv.target o ho, hv.next o ho⟩⟩
    · obtain ⟨r, hr, -⟩ := hv.spared o ho
      simp [hr]
    · rw [hI.2, List.nil_append, hlog]
  · intro hfinal
    obtain ⟨w', calls, hrun, hpends, hs, htold, hI⟩ :=
      keepFinalList_ok hkeeping hw.lists (hw.final hfinal) (fun o ho => (hfinal o ho).2)
        hw.pends hw.apart (Hooks.Logged.start hJ)
    have hlog := htold.consultations
      (fun o spared said (hs : Sealing w.heap o spared said) => hs.consultations) hnodup
    refine ⟨w', hrun, ?_, hpends, fun o ho => ⟨hs.target o ho, hs.next o ho⟩⟩
    rw [hI.2, List.nil_append, hlog, List.map_eq_flatMap]

/-- Keeping the target of the object 4 alive reaches the target of the object 6. -/
theorem resolveList_consults_in_order_motley :
    motleyHeap.Intact motleyWeak [.low 3, .low 4, .low 5, .low 6, .low 7, .low 8] [.low 11] ∧
    (∃ l' w', resolveList Hooks.reaching.consulted true true motleyWeak
        ⟨motleyHeap, ([.low 0], [])⟩ = .ok ⟨l', 6, 4⟩ w' ∧
      w'.collector.2 = [.asked (.low 2) false,
        .asked (.low 0) true, .kept ⟨.low 4, .referent⟩,
        .asked (.low 1) true, .kept ⟨.low 6, .referent⟩, .asked (.low 2) false,
        .asked (.low 0) true, .kept ⟨.low 8, .referent⟩] ∧
      w'.heap.Pends [.low 3, .low 7, .low 11]) ∧
    motleyHeap.Intact motleyFinal [.low 9, .low 10] [.low 11] ∧
    ∃ w', keepFinalList Hooks.reaching.consulted motleyFinal ⟨motleyHeap, ([.low 0], [])⟩ =
        .ok .empty w' ∧
      w'.collector.2 = [.kept ⟨.low 9, .referent⟩, .kept ⟨.low 10, .referent⟩] ∧
      w'.heap.Pends [.low 9, .low 10, .low 11] := by
  obtain ⟨l', w', kept, hrun, -, -, hlog, -, hpends, -⟩ :=
    (resolveList_consults_in_order Hooks.reaching_consulting
      (w := ⟨motleyHeap, ([.low 0], [])⟩) motleyWeak_intact trivial).1 true true fun _ _ _ => rfl
  obtain ⟨v', hfinal, hkept, hpends', -⟩ :=
    (resolveList_consults_in_order Hooks.reaching_consulting
      (w := ⟨motleyHeap, ([.low 0], [])⟩) motleyFinal_intact trivial).2 (by decide)
  have hchain : (match resolveList Hooks.reaching.consulted true true motleyWeak
      ⟨motleyHeap, ([.low 0], [])⟩ with
    | .ok _ w => (w.heap.chain w.heap.pendingHead).members
    | .error _ _ => []) = [.low 3, .low 7] ++ [.low 11] := by decide +kernel
  rw [hrun] at hchain
  simp only [hpends.chain_eq] at hchain
  obtain rfl : kept = [.low 3, .low 7] := List.append_cancel_right hchain
  exact ⟨motleyWeak_intact, ⟨l', w', hrun, hlog, hpends⟩, motleyFinal_intact, v', hfinal, hkept,
    hpends'⟩

/-! ### What passes the barrier -/

/-- The published references stand in front of the old chain when a list is
resolved or kept alive, and the barrier has seen the link of each of them once,
in the order of the chain, with the value that it has now. -/
theorem published_links_pass_barrier (hh : hooks.Consulting J)
    {w : World (γ × List (LinkAddr × Option Handle))} (hw : w.heap.Intact l ms ps)
    (hJ : J ⟨w.heap, w.collector.1⟩) :
    (∀ nullReferent, (∀ o ∈ ms, w.heap.target o = none → nullReferent = true) →
      ∃ w' published,
        resolveList hooks.barred nullReferent true l w =
          .ok ⟨.empty, ms.length, ms.length - published.length⟩ w' ∧
        published.Sublist ms ∧ w'.heap.Pends (published ++ ps) ∧
        (∀ o ∈ ms, o ∉ published → w'.heap.following o = none) ∧
        w'.collector.2 = w.collector.2 ++
          published.map (fun o => (⟨o, .discovered⟩, w'.heap.following o))) ∧
    ((∀ o ∈ ms, w.heap.target o ≠ none ∧ w.heap.nextLink o = none) →
      ∃ w', keepFinalList hooks.barred l w = .ok .empty w' ∧ w'.heap.Pends (ms ++ ps) ∧
        w'.collector.2 = w.collector.2 ++
          ms.map (fun o => (⟨o, .discovered⟩, w'.heap.following o))) := by
  have hkeeping := hh.barred_keepingFinals w.collector.2
  constructor
  · intro nullReferent hnull
    obtain ⟨l', w', published, calls, hrun, hsub, hlists, hpends, hgone, -, htold, hI⟩ :=
      resolveList_ok (hkeeping.resolving (hh.barred_answering w.collector.2)) true
        hw.lists (hw.resolvable hnull) hw.pends hw.apart (Hooks.Logged.start hJ)
    rw [if_pos rfl] at hlists hpends
    refine ⟨w', published, by rw [hrun, hlists.eq_empty], hsub, hpends, hgone, ?_⟩
    rw [hI.2, List.nil_append, htold.stored fun _ _ _ => Asked.stored,
      hw.pends.chainStores_eq hpends]
  · intro hfinal
    obtain ⟨w', calls, hrun, hpends, -, htold, hI⟩ :=
      keepFinalList_ok hkeeping hw.lists (hw.final hfinal) (fun o ho => (hfinal o ho).2)
        hw.pends hw.apart (Hooks.Logged.start hJ)
    refine ⟨w', hrun, hpends, ?_⟩
    rw [hI.2, List.nil_append, htold.stored fun _ _ _ => Sealing.stored,
      hw.pends.chainStores_eq hpends]

/-- The raw stores to the links of the objects 3 and 7, which unlink what stands
between them and at the end, are not seen. -/
theorem published_links_pass_barrier_motley :
    motleyHeap.Intact motleyWeak [.low 3, .low 4, .low 5, .low 6, .low 7, .low 8] [.low 11] ∧
    (∃ w', resolveList Hooks.reaching.barred true true motleyWeak
        ⟨motleyHeap, ([.low 0], [])⟩ = .ok ⟨.empty, 6, 4⟩ w' ∧
      w'.collector.2 = [(⟨.low 3, .discovered⟩, some (.low 7)),
        (⟨.low 7, .discovered⟩, some (.low 11))]) ∧
    motleyHeap.Intact motleyFinal [.low 9, .low 10] [.low 11] ∧
    ∃ w', keepFinalList Hooks.reaching.barred motleyFinal ⟨motleyHeap, ([.low 0], [])⟩ =
        .ok .empty w' ∧
      w'.collector.2 = [(⟨.low 9, .discovered⟩, some (.low 10)),
        (⟨.low 10, .discovered⟩, some (.low 11))] := by
  obtain ⟨w', published, hrun, -, hpends, -, hlog⟩ :=
    (published_links_pass_barrier Hooks.reaching_consulting
      (w := ⟨motleyHeap, ([.low 0], [])⟩) motleyWeak_intact trivial).1 true fun _ _ _ => rfl
  obtain ⟨v', hfinal, hpends', hlog'⟩ :=
    (published_links_pass_barrier Hooks.reaching_consulting
      (w := ⟨motleyHeap, ([.low 0], [])⟩) motleyFinal_intact trivial).2 (by decide)
  have hchain : (match resolveList Hooks.reaching.barred true true motleyWeak
      ⟨motleyHeap, ([.low 0], [])⟩ with
    | .ok _ w => (w.heap.chain w.heap.pendingHead).members
    | .error _ _ => []) = [.low 3, .low 7] ++ [.low 11] := by decide +kernel
  rw [hrun] at hchain
  simp only [hpends.chain_eq] at hchain
  obtain rfl : published = [.low 3, .low 7] := List.append_cancel_right hchain
  obtain ⟨hthird, hseventh, -⟩ := hpends.linked
  obtain ⟨hninth, htenth, -⟩ := hpends'.linked
  refine ⟨motleyWeak_intact, ⟨w', hrun, ?_⟩, motleyFinal_intact, v', hfinal, ?_⟩
  · rw [hlog, List.map_cons, List.map_cons, hthird, hseventh]
    rfl
  · rw [hlog', List.map_cons, List.map_cons, hninth, htenth]
    rfl

end Referents
