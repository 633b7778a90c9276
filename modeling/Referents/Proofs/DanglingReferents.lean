import Referents.Proofs.CycleOutcome
import Referents.Proofs.Heap.Growth

/-!
# References that dangle after a collection

A marked reference **dangles** if its target is neither null nor marked: it is
kept, and what it points to is not.  A collection traces from roots and
processes what it discovered.  Every reference that was marked by the trace is
safe afterwards, whether its target was alive, or it was declined and traced
like any other object, or it was resolved.

A reference that is marked only when the target of a final reference is kept
alive is never offered and its target is never looked at.  It dangles if nothing
else marks its target.

* `Marker.dangles_iff` — which references dangle after a collection.
* `Marker.Outcome.not_strands` — a reference that was on a list is safe after a cycle.
-/

namespace Referents

/-- A marked reference with a target that is neither null nor marked. -/
def Heap.Dangles (h : Heap) (o : Handle) : Prop :=
  h.marks o = true ∧ h.kindOf o ≠ none ∧ h.Strands h.marks o

instance (h : Heap) (o : Handle) : Decidable (h.Dangles o) :=
  inferInstanceAs (Decidable (_ ∧ _ ∧ _))

namespace Marker

variable {c c' : Cycle Marker} {r : Roster} {ps pub : List Handle} {o : Handle}

theorem Outcome.closed (ho : Outcome r ps c pub c') :
    c'.world.heap.Closed fun o => c'.world.heap.marks o = true := by
  intro o hm p hp
  rw [Heap.edgesOf_congr ho.traits] at hp
  exact (ho.marks p).mpr (.edge ((ho.marks o).mp hm) hp)

/-- A reference that was on a list does not point to an object that is not marked. -/
theorem Outcome.not_strands (ho : Outcome r ps c pub c') {k : RefKind} (hl : r.lists k o) :
    ¬ c'.world.heap.Strands c'.world.heap.marks o := by
  have hpublished := ho.published k o hl
  by_cases hm : o ∈ pub
  · by_cases hk : k = .final
    · subst hk
      obtain ⟨t, ht, hmark⟩ := hpublished.mp hm
      refine Heap.not_strands_iff.mpr (.inr ⟨t, (ho.sealed o hl hm).1.trans ht, ?_⟩)
      exact (ho.marks t).mpr (.base (.inr ⟨o, hl, ht, by simpa using hmark⟩))
    · exact Heap.not_strands_iff.mpr (.inl (ho.cleared k o hl hk hm).1)
  · rw [Heap.strands_congr (ho.dropped k o hl hm).2.1]
    rw [hpublished] at hm
    by_cases hk : k = .phantom
    · rwa [if_pos hk] at hm
    · rw [if_neg hk] at hm
      refine Heap.not_strands_iff.mpr ((Heap.not_strands_iff.mp hm).imp id ?_)
      exact fun ⟨t, ht, hmark⟩ => ⟨t, ht, ho.grown hmark⟩

/-- After a cycle that follows a trace exactly those references dangle that were
marked in the cycle only, with a target that it did not mark. -/
theorem Outcome.dangles_iff_unjudged (ho : Outcome r ps c pub c')
    (hj : Judged (fun _ => False) r c.world.heap [])
    (hmarked : ∀ k o, r.lists k o → c.world.heap.marks o = true) :
    c'.world.heap.Dangles o ↔ c'.world.heap.marks o = true ∧ c.world.heap.marks o = false ∧
      c'.world.heap.kindOf o ≠ none ∧ c.world.heap.Strands c'.world.heap.marks o := by
  have hkind : c'.world.heap.kindOf o = c.world.heap.kindOf o := by
    rw [Heap.kindOf_congr ho.traits]
  by_cases hl : ∃ k, r.lists k o
  · obtain ⟨k, hl⟩ := hl
    refine iff_of_false (fun hd => ho.not_strands hl hd.2.2) ?_
    intro hlate
    obtain ⟨-, hunmarked, -, -⟩ := hlate
    rw [hmarked k o hl] at hunmarked
    cases hunmarked
  · have htarget : c'.world.heap.target o = c.world.heap.target o :=
      ho.others ⟨o, .referent⟩ fun k hk => hl ⟨k, hk⟩
    constructor
    · intro hdangles
      obtain ⟨hmark, hk, hstrands⟩ := hdangles
      rw [Heap.strands_congr htarget] at hstrands
      refine ⟨hmark, ?_, hk, hstrands⟩
      by_contra hold
      rw [hkind] at hk
      rcases hj o id (by simpa using hold) (by simp) hk with hsafe | hlisted
      · obtain ⟨t, ht, hm⟩ := hstrands
        refine hsafe ⟨t, ht, ?_⟩
        by_contra hmarked
        rw [ho.grown (by simpa using hmarked)] at hm
        cases hm
      · exact hl hlisted
    · intro hlate
      obtain ⟨hmark, -, hk, hstrands⟩ := hlate
      exact ⟨hmark, hk, (Heap.strands_congr htarget).mpr hstrands⟩

/-- After a collection of any object graph from any roots, what is marked is
closed under edges, and a reference that was marked by the trace does not dangle.
Exactly those references dangle that were marked after the trace only and have a
target that was not marked even then.  So no reference dangles exactly if there
are no such ones. -/
theorem dangles_iff {t : Threaded (Cycle Marker)} (hbuilt : t.state.world.heap.Built)
    (hr : Registered t.state.processor t.state.world.heap Roster.none [])
    (hoff : t.state.processor.enabled = false)
    (hresting : t.state.world.collector.queue.items = [])
    (hdegree : t.state.processor.degree ≤ t.state.processor.queues)
    (hturn : t.state.processor.turn < t.state.processor.degree)
    (hworker : t.state.processor.multiDiscovery = true →
      t.worker.getD 0 < t.state.processor.queues)
    (hclock : isClockReading t.state.processor.clock.millis = true)
    (roots : List Handle) (hroots : ∀ o ∈ roots, t.state.world.heap.holds o = true)
    (readings : Readings) {pooled : Bool} (hequipped : Pass.Equipped pooled t) :
    ∃ t₁ t₂ counts, (Threaded.lift (traceRoots roots t.worker) : Pass Marker Unit) t =
        .ok () t₁ ∧
      Pass.process hooks readings pooled t₁ = .ok counts t₂ ∧
      t₂.state.world.heap.Closed (fun o => t₂.state.world.heap.marks o = true) ∧
      (∀ o, t₁.state.world.heap.marks o = true → ¬ t₂.state.world.heap.Dangles o) ∧
      (∀ o, t₂.state.world.heap.Dangles o ↔
        t₂.state.world.heap.marks o = true ∧ t₁.state.world.heap.marks o = false ∧
        t.state.world.heap.kindOf o ≠ none ∧
        t.state.world.heap.Strands t₂.state.world.heap.marks o) ∧
      ((∀ o, ¬ t₂.state.world.heap.Dangles o) ↔
        ∀ o, t₂.state.world.heap.marks o = true → t₁.state.world.heap.marks o = false →
          t.state.world.heap.kindOf o ≠ none →
          ¬ t.state.world.heap.Strands t₂.state.world.heap.marks o) := by
  have hu := hbuilt.untouched
  have htrace : Traceable t.state.processor.discovering t.state.world.heap [] t.worker :=
    ⟨hu.targets, by simp, fun o tr htr => by
      rw [hu.unstamped o tr htr, Int.sub_zero]
      exact hclock, hdegree, hworker⟩
  obtain ⟨c₁, r, hrun₁, hd, hmarking, hempty, hj, -⟩ := traceRoots_ok hr
    (fun o ho => absurd (hu.following o) ho) hoff hturn hu.edges hu.marks hresting hroots htrace
  have hconfig : c₁.processor.config = t.state.processor.config :=
    (Processor.config_eq_of_setup hd.setup).trans rfl
  have hqueues : c₁.processor.queues = t.state.processor.queues := by
    rw [Processor.queues, hconfig, Processor.queues]
  have hdeg : c₁.processor.degree = t.state.processor.degree := hd.degree
  have hequipped₁ : Pass.Equipped pooled { t with state := c₁ } :=
    ⟨hequipped.canStart, by
      show c₁.times.HasRoom c₁.processor.queues
      rw [(leaves_traceRoots roots t.worker).of_ok hrun₁, hqueues]
      exact hequipped.room⟩
  obtain ⟨t₂, pub, hrun₂, ho, -, -⟩ := process_ok (t := { t with state := c₁ }) hd.registered
    (hd.ready htrace _) hmarking hempty
    (by show 1 ≤ c₁.processor.degree; omega)
    (by show c₁.processor.degree ≤ c₁.processor.queues; omega) readings hequipped₁
  have hdangles : ∀ o, t₂.state.world.heap.Dangles o ↔
      t₂.state.world.heap.marks o = true ∧ c₁.world.heap.marks o = false ∧
      t.state.world.heap.kindOf o ≠ none ∧
      t.state.world.heap.Strands t₂.state.world.heap.marks o := fun o => by
    rw [ho.dangles_iff_unjudged hj hd.marked, Heap.kindOf_congr (ho.traits.trans hd.traits),
      Heap.strands_congr (hd.target_eq o)]
  refine ⟨{ t with state := c₁ }, t₂, _, Threaded.lift_ok hrun₁, hrun₂, ho.closed, ?_,
    hdangles, ?_⟩
  · intro o hm hdangle
    obtain ⟨-, hunmarked, -⟩ := (hdangles o).mp hdangle
    rw [show c₁.world.heap.marks o = true from hm] at hunmarked
    cases hunmarked
  · constructor
    · exact fun hnone o hm hnew hk hs => hnone o ((hdangles o).mpr ⟨hm, hnew, hk, hs⟩)
    · intro hsafe o hd
      obtain ⟨hm, hnew, hk, hs⟩ := (hdangles o).mp hd
      exact hsafe o hm hnew hk hs

/-! ### A reference that dangles -/

/-- A plain object, a soft reference to it, an object with an edge to this
reference, and a final reference to the latter. -/
def revivedSoftHeap : Heap where
  slots := (((Table.empty.push
    (.fresh none .young none)).push
    (.fresh (some .soft) .young (some (.low 0)))).push
    { Slot.fresh none .young none with edges := [.low 1] }).push
    (.fresh (some .final) .young (some (.low 2)))
  pending := .null

/-- A processor that clears no soft reference, before the collection. -/
def revivedSoftCycle : Threaded (Cycle Marker) where
  state := {
    world := ⟨revivedSoftHeap, {}⟩
    processor := {
      config := .serial 1, scope := .wholeHeap, knownAlive := none, enabled := false
      multiDiscovery := false, degree := 1, turn := 0
      lists := .replicate #[.empty], clock := ⟨0⟩, snapshot := 0, policy := .never
      clearAll := false, journal := { config := {} } }
    times := .create 1
    sink := {} }

theorem revivedSoft_built : revivedSoftHeap.Built := by
  obtain ⟨h₁, hh₁⟩ : ∃ h, Heap.empty.allocate .young = .ok (.low 0, h) := ⟨_, rfl⟩
  obtain ⟨h₂, hh₂⟩ : ∃ h, h₁.allocateReference (some .soft) (some (.low 0)) .young =
      .ok (.low 1, h) := by cases hh₁; exact ⟨_, rfl⟩
  obtain ⟨h₃, hh₃⟩ : ∃ h, h₂.allocate .young = .ok (.low 2, h) := by
    cases hh₁; cases hh₂; exact ⟨_, rfl⟩
  obtain ⟨h₄, hh₄⟩ : ∃ h, h₃.allocateReference (some .final) (some (.low 2)) .young =
      .ok (.low 3, h) := by cases hh₁; cases hh₂; cases hh₃; exact ⟨_, rfl⟩
  have hh₅ : h₄.addEdge (.low 2) (.low 1) = .ok revivedSoftHeap := by
    cases hh₁; cases hh₂; cases hh₃; cases hh₄; rfl
  exact .addEdge (.allocateReference (.allocate (.allocateReference (.allocate .empty hh₁) hh₂)
    hh₃) hh₄) hh₅

theorem revivedSoft_registered :
    Registered revivedSoftCycle.state.processor revivedSoftHeap Roster.none [] where
  size k := by cases k <;> rfl
  spread k := by
    refine ⟨fun q l hl => ?_, fun _ _ => rfl, fun _ _ _ ho => (nomatch ho)⟩
    have hlists : revivedSoftCycle.state.processor.listsOf k = #[.empty] := by cases k <;> rfl
    rw [hlists] at hl
    cases q with
    | zero =>
        cases hl
        exact DiscoveredList.lists_empty _
    | succ q => cases hl
  kinds _ _ _ ho := nomatch ho
  pending := ⟨by decide, trivial, List.nodup_nil, fun _ ho => (nomatch ho)⟩
  free _ _ _ ho := nomatch ho

/-- In such a collection the final reference, which was a root, does not dangle. -/
theorem dangles_iff_of_revived_soft : revivedSoftHeap.Built ∧
    Registered revivedSoftCycle.state.processor revivedSoftHeap Roster.none [] ∧
    ∃ t₁ t₂ counts, (Threaded.lift (traceRoots [.low 3] none) : Pass Marker Unit)
        revivedSoftCycle = .ok () t₁ ∧
      Pass.process hooks {} false t₁ = .ok counts t₂ ∧
      t₁.state.world.heap.marks (.low 3) = true ∧
      ¬ t₂.state.world.heap.Dangles (.low 3) := by
  have hequipped : Pass.Equipped false revivedSoftCycle := ⟨by decide, by decide⟩
  obtain ⟨t₁, t₂, counts, hrun₁, hrun₂, -, hsafe, -⟩ := dangles_iff (t := revivedSoftCycle)
    revivedSoft_built revivedSoft_registered rfl rfl (by decide) (by decide) (by decide)
    (by decide) [.low 3] (by decide) {} hequipped
  obtain ⟨⟨⟩, t, hrun, hmarked⟩ := exists_of_run
    (x := (Threaded.lift (traceRoots [.low 3] none) : Pass Marker Unit)) (s := revivedSoftCycle)
    (P := fun _ t => t.state.world.heap.marks (.low 3)) (by decide +kernel)
  rw [show revivedSoftCycle.worker = none from rfl, hrun] at hrun₁
  cases hrun₁
  exact ⟨revivedSoft_built, revivedSoft_registered, t₁, t₂, counts, hrun, hrun₂, hmarked,
    hsafe _ hmarked⟩

/-- A collection from the final reference as its only root ends with the soft
reference marked and its target not marked. -/
theorem revived_soft_dangles : revivedSoftHeap.Built ∧
    revivedSoftCycle.state.processor.policy = .never ∧
    ∃ counts t, (do
      Threaded.lift (traceRoots [.low 3] none)
      Pass.process hooks {} false : Pass Marker CycleCounts) revivedSoftCycle = .ok counts t ∧
      t.state.world.heap.Dangles (.low 1) := by
  obtain ⟨counts, t, hrun, hdangles⟩ := exists_of_run (x := (do
      Threaded.lift (traceRoots [.low 3] none)
      Pass.process hooks {} false : Pass Marker CycleCounts)) (s := revivedSoftCycle)
    (P := fun _ t => decide (t.state.world.heap.Dangles (.low 1))) (by decide +kernel)
  exact ⟨revivedSoft_built, rfl, counts, t, hrun, of_decide_eq_true hdangles⟩

end Marker

end Referents
