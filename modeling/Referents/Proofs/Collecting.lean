import Referents.Proofs.Soundness
import Referents.Proofs.Tracing

/-!
# Collections with one marker

A program collects with one marker again and again.  Between and during its collections
mutators add objects and edges, and let references point to what they like, so that of
marks and targets little is known when the next collection starts.  What is known is
enough for its steps to return: the objects that wait in the queue are marked, and a
pending final reference bears the mark of having been processed.

* `Collecting` — a sound cycle between any two steps of a collection.
* `Collecting.of_tended` — operations that ask no collector keep it.
* `Collecting.reset`, `Collecting.grows`, `Collecting.discovered` — marks are removed, roots
  are marked, and everything is traced.
* `Collecting.preclean_ok`, `Collecting.process_ok` — listed references are resolved.
-/

namespace Referents

variable {c c' : Cycle Marker} {r r' : Roster} {ps ps' pub : List Handle}

/-- A sound cycle with a marker.  The objects in the queue are marked; others need not be
traced, since mutators may add edges at any time. -/
structure Collecting (c : Cycle Marker) (r : Roster) (ps : List Handle) : Prop
    extends Sound c r ps where
  waiting : ∀ o ∈ c.world.collector.queue.items, c.world.heap.marks o = true
  sealed : ∀ o ∈ ps, c.world.heap.kindOf o = some .final → c.world.heap.nextLink o ≠ none

namespace Collecting

theorem marking (hc : Collecting c r ps) : Marker.MarkingOff (fun _ => True) c.world :=
  ⟨hc.sane.edges, hc.waiting, fun _ hE => absurd trivial hE⟩

theorem kinds (hc : Collecting c r ps) {k : RefKind} {o : Handle} (ho : r.lists k o) :
    c.world.heap.kindOf o = some k := ho.elim fun q hq => hc.registered.kinds k q o hq

/-- Kinds and seals are found again where they were. -/
theorem sealed_of_eq (hc : Collecting c r ps)
    (hkind : ∀ o, c.world.heap.holds o = true → c'.world.heap.kindOf o = c.world.heap.kindOf o)
    (hnext : ∀ o ∈ ps, c'.world.heap.nextLink o = c.world.heap.nextLink o) :
    ∀ o ∈ ps, c'.world.heap.kindOf o = some .final → c'.world.heap.nextLink o ≠ none := by
  intro o ho hfinal
  rw [hkind o (hc.registered.pending.held o ho)] at hfinal
  rw [hnext o ho]
  exact hc.sealed o ho hfinal

/-- An operation that asks no collector puts nothing on the pending chain. -/
theorem of_tended (hc : Collecting c r ps) (ht : Tended c c' r' ps') (hps : ∀ o ∈ ps', o ∈ ps) :
    Collecting c' r' ps' where
  toSound := ht.toSound
  waiting o ho := by
    rw [ht.collector] at ho
    have hmarked := hc.waiting o ho
    rw [ht.endures.marks o (Heap.holds_of_marks hmarked)]
    exact hmarked
  sealed o ho := hc.sealed_of_eq ht.endures.kind
    (fun p hp => ht.endures.next p (hc.registered.pending.held p hp)) o (hps o ho)

/-- Whoever touches no links keeps this. -/
theorem of_keeps (hc : Collecting c r ps) (hs : Sound c' r ps)
    (hkeeps : c.world.heap.Keeps c'.world.heap)
    (hwaiting : ∀ o ∈ c'.world.collector.queue.items, c'.world.heap.marks o = true) :
    Collecting c' r ps where
  toSound := hs
  waiting := hwaiting
  sealed := hc.sealed_of_eq hkeeps.kind fun o ho =>
    hkeeps.link_eq (a := ⟨o, .next⟩) (hc.registered.pending.held o ho)

/-- The marks are removed, and the marker forgets what waits. -/
theorem reset (hc : Collecting c r ps) :
    Collecting { c with world := ⟨c.world.heap.clearMarks, {}⟩ } r ps := by
  have hkeeps := c.world.heap.keeps_clearMarks
  refine hc.of_keeps (hc.toSound.of_keeps hkeeps ?_) hkeeps fun _ hp => nomatch hp
  exact hc.sane.congr Heap.traits_clearMarks (hkeeps.targets hc.sane.targets)

/-- Objects are marked. -/
theorem grows {w : World Marker} {new : List Handle} (hc : Collecting c r ps)
    (hg : Marker.Grows c.world new w) : Collecting { c with world := w } r ps :=
  hc.of_keeps (hc.toSound.of_keeps hg.keeps (hc.sane.congr hg.traits
    (hg.keeps.targets hc.sane.targets))) hg.keeps (hc.marking.grows hg).marked

/-- Everything that waits can be traced. -/
theorem explorable (hc : Collecting c r ps) {worker : Option Nat}
    (hworker : c.processor.multiDiscovery = true → worker.getD 0 < c.processor.queues) :
    Marker.Explorable c.processor c.world.heap worker :=
  ⟨hc.sane.targets, hc.timely, hc.queues_pos, hc.degree, hworker⟩

/-- Where nothing was listed before, a trace that lists no pending reference keeps this. -/
theorem discovered (hc : Collecting c Roster.none ps)
    (hd : Marker.Discovering c.processor c.world.heap ps r' c')
    (hw : Marker.MarkingOff (fun _ => True) c'.world) : Collecting c' r' ps where
  toSound := hc.of_moved hd.registered hd.covers hd.traits hd.stable hd.fresh hd.setup hd.degree
    hd.inTurn
  waiting := hw.marked
  sealed := hc.sealed_of_eq (fun o _ => by rw [Heap.kindOf_congr hd.traits])
    fun o _ => hd.nextLink_eq o

/-- References were settled.  The final references that were published are sealed. -/
theorem settle {calls : List Call} (hc : Collecting c r ps) (hs : Sound c' r' (pub ++ ps))
    (hsettles : Settles calls r c.world.heap pub r' c'.world.heap)
    (hwaiting : ∀ o ∈ c'.world.collector.queue.items, c'.world.heap.marks o = true) :
    Collecting c' r' (pub ++ ps) where
  toSound := hs
  waiting := hwaiting
  sealed o ho hfinal := by
    rcases List.mem_append.mp ho with ho | ho
    · obtain ⟨k, hl, hfate⟩ := hsettles.fate_of_published ho
      have hkind : c'.world.heap.kindOf o = some k :=
        (hsettles.agrees.kind o (hc.registered.lists_held hl)).trans (hc.kinds hl)
      cases hfate with
      | dropped unlisted link target next why => exact absurd ho unlisted
      | cleared weak listed target next why =>
          rw [hkind, Option.some.injEq] at hfinal
          exact absurd hfinal weak
      | finalized final listed target next why =>
          rw [next]
          exact Option.some_ne_none o
    · refine hc.sealed_of_eq hsettles.agrees.kind (fun p hp => ?_) o ho hfinal
      exact hsettles.agrees.nextLink (hc.registered.pending.held p hp) fun ⟨k, q, hl⟩ =>
        hc.registered.free k q p hl hp

/-- Precleaning with the marker returns, whatever it is answered. -/
theorem preclean_ok (hc : Collecting c r ps) {τ : Type} (check : YieldCheck τ) (answers : τ)
    (readings : Readings) :
    ∃ out c' r' calls, Step.viaCollector (·, answers) Prod.fst
        (Step.preclean (Marker.hooks.beside τ) (check.beside Marker) readings) c = .ok out c' ∧
      Collecting c' r' ps ∧ Settles calls r c.world.heap [] r' c'.world.heap ∧
      c'.world.heap.traits = c.world.heap.traits ∧ c'.processor.config = c.processor.config := by
  have hs : Sound (c.withCollector (c.world.collector, answers)) r ps :=
    ⟨hc.registered, hc.covers, hc.sane, hc.fresh, hc.positive, hc.degree, hc.turn, hc.clock,
      hc.snapshot⟩
  obtain ⟨out, d, r', hrun, hworked⟩ := hs.preclean_ok
    ((Marker.unobtrusive _ c.world.heap.traits).beside τ) ⟨hc.marking, rfl⟩
    (check.respects_beside fun w => Marker.MarkingOff (fun _ => True) w ∧
      w.heap.traits = c.world.heap.traits) readings
  obtain ⟨calls, hsettles⟩ := hworked.settles
  have hs' : Sound (d.withCollector d.world.collector.1) r' ([] ++ ps) :=
    ⟨hworked.sound.registered, hworked.sound.covers, hworked.sound.sane, hworked.sound.fresh,
      hworked.sound.positive, hworked.sound.degree, hworked.sound.turn, hworked.sound.clock,
      hworked.sound.snapshot⟩
  exact ⟨_, _, r', calls, Step.viaCollector_ok hrun, hc.settle hs' hsettles hworked.inv.1.marked,
    hsettles, hworked.inv.2, hworked.config⟩

/-- A processing cycle with the marker returns, and discovery is over. -/
theorem process_ok {t : Threaded (Cycle Marker)} (hc : Collecting t.state r ps)
    (hnull : t.state.processor.config.concurrentDiscovery = false →
      ∀ k o, r.lists k o → t.state.world.heap.target o ≠ none)
    {readings : Readings} (hnow : readings.now < 2 ^ 63) {pooled : Bool}
    (hequipped : Pass.Equipped pooled t) :
    ∃ t' counts pub calls, Pass.process Marker.hooks readings pooled t = .ok counts t' ∧
      Collecting t'.state Roster.none (pub ++ ps) ∧
      Settles calls r t.state.world.heap pub Roster.none t'.state.world.heap ∧
      t'.state.world.heap.traits = t.state.world.heap.traits ∧
      t'.state.processor.config = t.state.processor.config ∧
      t'.state.processor.enabled = false := by
  obtain ⟨t', counts, pub, hrun, hworked, hoff⟩ := hc.toSound.process_ok
    (Marker.unobtrusive _ t.state.world.heap.traits) ⟨hc.marking, rfl⟩ hnull hnow hequipped
  obtain ⟨calls, hsettles⟩ := hworked.settles
  exact ⟨t', counts, pub, calls, hrun, hc.settle hworked.sound hsettles hworked.inv.1.marked,
    hsettles, hworked.inv.2, hworked.config, hoff⟩

end Collecting

end Referents
