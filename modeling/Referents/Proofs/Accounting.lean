import Referents.Proofs.Collecting
import Referents.Proofs.HandingOut

/-!
# Pending references from cycle to cycle

A pending reference is chained through the same link as a listed one, and the
last of the chain has no link at all.  While it waits for the handler more
collections may come, and none of them may list it again.  What prevents it is
no mark on the chain: its target is null, so that a trace does not offer it, or
it is a final reference that is marked as processed, so that it is declined.

* `Heap.Processed` — what a pending reference looks like.
* `Heap.Fades` — targets at most vanish from one heap to the next.
* `Accounted` — a cycle between steps of a collection whose pending references were all
  processed.
* `Accounted.trace_ok`, `Accounted.preclean_ok`, `Accounted.process_ok`,
  `Accounted.handOut` — a collection and a pass of the handler keep it so.
-/

namespace Referents

/-! ### Targets that vanish -/

namespace Heap

variable {h g k : Heap} {o : Handle} {S T : Handle → Prop}

/-- A reference that was processed: no trace lists it again. -/
inductive Processed (h : Heap) (o : Handle) : Prop
  | final (kind : h.kindOf o = some .final) (next : h.nextLink o = some o)
  | other {k : RefKind} (kind : h.kindOf o = some k) (weak : k ≠ .final)
      (target : h.target o = none)

theorem Processed.holds (hp : h.Processed o) : h.holds o = true := by
  cases hp with
  | final kind next => exact holds_of_kindOf kind
  | other kind weak target => exact holds_of_kindOf kind

/-- The objects of `h` are in `g`, with their kinds.  Targets at most vanished, and
those of final references only if the reference is in `S`. -/
structure Fades (S : Handle → Prop) (h g : Heap) : Prop where
  holds : ∀ o, h.holds o = true → g.holds o = true
  kind : ∀ o, h.holds o = true → g.kindOf o = h.kindOf o
  target : ∀ o, h.holds o = true → g.target o = h.target o ∨ g.target o = none
  final : ∀ o, h.kindOf o = some .final → ¬ S o → g.target o = h.target o

theorem Keeps.fades (hg : h.Keeps g) : h.Fades (fun _ => False) g where
  holds _ := hg.holds
  kind := hg.kind
  target _ ho := .inl (hg.link_eq ho)
  final _ ho _ := hg.link_eq (holds_of_kindOf ho)

/-- A null target stays null. -/
theorem Fades.target_none (hf : h.Fades S g) (ho : h.holds o = true) (ht : h.target o = none) :
    g.target o = none := (hf.target o ho).elim (fun he => he.trans ht) id

/-- What was processed is not undone. -/
theorem Fades.processed (hf : h.Fades S g) (hp : h.Processed o)
    (hnext : g.nextLink o = h.nextLink o) : g.Processed o := by
  cases hp with
  | final kind next =>
      exact .final ((hf.kind o (holds_of_kindOf kind)).trans kind) (hnext.trans next)
  | other kind weak target =>
      have ho := holds_of_kindOf kind
      exact .other ((hf.kind o ho).trans kind) weak (hf.target_none ho target)

/-- One target is cleared. -/
theorem fades_clear (h : Heap) (o : Handle) : h.Fades (· = o) (h.write ⟨o, .referent⟩ none) where
  holds p hp := by rwa [holds_write]
  kind p _ := by rw [kindOf_write]
  target p hp := by
    by_cases hpo : p = o
    · subst hpo
      exact .inr (link_write_self hp)
    · exact .inl (link_write_of_obj_ne hpo)
  final p _ hp := link_write_of_obj_ne hp

end Heap

/-- Settling clears targets, but not those of final references. -/
theorem Settles.fades {calls : List Call} {r r' : Roster} {h g : Heap} {pub : List Handle}
    (hs : Settles calls r h pub r' g) (hkinds : ∀ k o, r.lists k o → h.kindOf o = some k) :
    h.Fades (fun _ => False) g where
  holds _ := hs.agrees.holds
  kind := hs.agrees.kind
  target _ := hs.target_eq_or
  final o ho _ := hs.target_of_final (Heap.holds_of_kindOf ho) fun k hk =>
    Option.some.inj ((hkinds k o hk).symm.trans ho)

/-- A pass of the handler clears the targets of the final references it hands out. -/
theorem HandedOut.fades {handler handler' : Handler} {h h' : Heap} {batch : List Handle}
    (hd : HandedOut handler h batch handler' h') : h.Fades (· ∈ batch) h' where
  holds o ho := by rwa [Heap.holds_congr hd.objects.traits]
  kind o _ := by rw [Heap.kindOf_congr hd.objects.traits]
  target o _ := by
    rw [hd.target]
    split
    · exact .inr rfl
    · exact .inl rfl
  final o _ ho := by rw [hd.target, if_neg fun hm => ho hm.1]

/-! ### Accounted cycles -/

variable {c c' : Cycle Marker} {r r' : Roster} {ps pub : List Handle} {o : Handle}

/-- A cycle between steps of a collection whose pending references were processed. -/
structure Accounted (c : Cycle Marker) (r : Roster) (ps : List Handle) : Prop
    extends Collecting c r ps where
  pointing : c.processor.config.concurrentDiscovery = false →
    ∀ k o, r.lists k o → c.world.heap.target o ≠ none
  processed : ∀ o ∈ ps, c.world.heap.Processed o

namespace Accounted

/-- A pending reference that was processed is sealed, if it is a final reference. -/
theorem of_sound (hs : Sound c r ps)
    (hwaiting : ∀ o ∈ c.world.collector.queue.items, c.world.heap.marks o = true)
    (hpointing : c.processor.config.concurrentDiscovery = false →
      ∀ k o, r.lists k o → c.world.heap.target o ≠ none)
    (hprocessed : ∀ o ∈ ps, c.world.heap.Processed o) : Accounted c r ps where
  toSound := hs
  waiting := hwaiting
  sealed o ho hfinal := by
    cases hprocessed o ho with
    | final kind next =>
        rw [next]
        exact Option.some_ne_none o
    | other kind weak target =>
        rw [kind, Option.some.injEq] at hfinal
        exact absurd hfinal weak
  pointing := hpointing
  processed := hprocessed

/-- The sink and the times do not matter. -/
theorem congr (ha : Accounted c r ps) (hworld : c'.world = c.world)
    (hprocessor : c'.processor = c.processor) : Accounted c' r ps :=
  of_sound (ha.toSound.congr hworld hprocessor) (by rw [hworld]; exact ha.waiting)
    (by rw [hworld, hprocessor]; exact ha.pointing) (by rw [hworld]; exact ha.processed)

/-! ### Mutators -/

/-- Whoever touches no links leaves a cycle accounted. -/
theorem of_keeps (ha : Accounted c r ps) (hs : Sound c' r ps)
    (hkeeps : c.world.heap.Keeps c'.world.heap)
    (hwaiting : ∀ o ∈ c'.world.collector.queue.items, c'.world.heap.marks o = true)
    (hconfig : c'.processor.config = c.processor.config) : Accounted c' r ps where
  toCollecting := ha.toCollecting.of_keeps hs hkeeps hwaiting
  pointing hconcurrent k o ho := by
    rw [hconfig] at hconcurrent
    have htarget : c'.world.heap.target o = c.world.heap.target o :=
      hkeeps.link_eq (ha.registered.lists_held ho)
    rw [htarget]
    exact ha.pointing hconcurrent k o ho
  processed o ho := hkeeps.fades.processed (ha.processed o ho)
    (hkeeps.link_eq (ha.registered.pending.held o ho))

/-- A mutator allocates an object. -/
theorem grown {kind : Kind} {gen : Generation} {referent : Option Handle} {g : Heap}
    (ha : Accounted c r ps) (hg : Heap.Grown (.fresh kind gen referent) o c.world.heap g)
    (ht : c.world.heap.holdsOption referent = true) :
    Accounted { c with world := { c.world with heap := g } } r ps := by
  obtain ⟨hkeeps, hsane⟩ := ha.push_fresh hg ht
  refine ha.of_keeps (ha.toSound.of_keeps hkeeps hsane) hkeeps (fun p hp => ?_) rfl
  have hm := ha.waiting p hp
  show g.marks p = true
  rw [hg.marks, if_neg (hg.ne_of_holds (Heap.holds_of_marks hm))]
  exact hm

/-- A mutator adds an edge. -/
theorem edged {a b : Handle} {g : Heap} (ha : Accounted c r ps)
    (he : Heap.Edged a b c.world.heap g) :
    Accounted { c with world := { c.world with heap := g } } r ps := by
  refine ha.of_keeps (ha.toSound.of_keeps he.keeps (ha.sane.edged he)) he.keeps (fun p hp => ?_) rfl
  show g.marks p = true
  rw [he.marks]
  exact ha.waiting p hp

/-- A target is cleared.  If targets of listed references must not be null, then
the reference is on no list. -/
theorem clear (ha : Accounted c r ps) (hfree : c.processor.config.concurrentDiscovery = false →
      ∀ k, ¬ r.lists k o) : Accounted { c with world := { c.world with
        heap := c.world.heap.write ⟨o, .referent⟩ none } } r ps := by
  refine of_sound (ha.retarget o rfl) (fun p hp => ?_) (fun hconcurrent k p hp => ?_) fun p hp => ?_
  · rw [Heap.marks_write]
    exact ha.waiting p hp
  · have hne : p ≠ o := fun e => hfree hconcurrent k (e ▸ hp)
    show (c.world.heap.write ⟨o, .referent⟩ none).target p ≠ none
    rw [Heap.target, Heap.link_write_of_obj_ne hne]
    exact ha.pointing hconcurrent k p hp
  · exact (c.world.heap.fades_clear o).processed (ha.processed p hp)
      (Heap.link_write_of_field_ne (by simp))

/-! ### Collections -/

/-- The marks are removed, and the marker forgets what waits. -/
theorem reset (ha : Accounted c r ps) :
    Accounted { c with world := ⟨c.world.heap.clearMarks, {}⟩ } r ps :=
  ha.of_keeps ha.toCollecting.reset.toSound c.world.heap.keeps_clearMarks (fun _ hp => nomatch hp)
    rfl

/-- Discovery is enabled. -/
theorem enable_ok (ha : Accounted c Roster.none ps) (hoff : c.processor.enabled = false) :
    (Step.updateProcessor Processor.enable : Step Marker Unit) c =
        .ok () { c with processor := c.processor.discovering } ∧
      Accounted { c with processor := c.processor.discovering } Roster.none ps := by
  obtain ⟨hrun, hs⟩ := ha.toSound.enable_ok hoff
  exact ⟨hrun, ha.of_keeps hs (.refl _) ha.waiting rfl⟩

/-- Objects are marked. -/
theorem grows {w : World Marker} {new : List Handle} (ha : Accounted c r ps)
    (hg : Marker.Grows c.world new w) : Accounted { c with world := w } r ps :=
  ha.of_keeps (ha.toCollecting.grows hg).toSound hg.keeps (ha.marking.grows hg).marked rfl

/-- A trace with nothing listed returns, and lists no pending reference. -/
theorem trace_ok (ha : Accounted c Roster.none ps) {worker : Option Nat}
    (hworker : c.processor.multiDiscovery = true → worker.getD 0 < c.processor.queues) :
    ∃ c' r', Marker.trace worker c = .ok () c' ∧ Accounted c' r' ps ∧
      c.world.heap.Fades (fun _ => False) c'.world.heap ∧
      c'.world.heap.traits = c.world.heap.traits := by
  have htraceable : Marker.Traceable c.processor c.world.heap ps worker := by
    refine ⟨ha.sane.targets, fun o ho => ?_, ha.timely, ha.degree, hworker⟩
    cases ha.processed o ho with
    | final kind next => exact .inr ⟨kind, by simp [next]⟩
    | other kind weak target => exact .inl target
  obtain ⟨c', r', hrun, hd, hw, -⟩ :=
    Marker.trace_ok ha.registered ha.covers ha.turn ha.marking htraceable
  have hfades : c.world.heap.Fades (fun _ => False) c'.world.heap :=
    ⟨fun o ho => by rwa [hd.holds_eq], fun o _ => by rw [Heap.kindOf_congr hd.traits],
      fun o _ => .inl (hd.target_eq o), fun o _ _ => hd.target_eq o⟩
  refine ⟨c', r', hrun, ⟨ha.toCollecting.discovered hd hw, fun _ k o ho => ?_, fun o ho => ?_⟩,
    hfades, hd.traits⟩
  · rw [hd.target_eq]
    exact hd.pointing k o ho
  · exact hfades.processed (ha.processed o ho) (hd.nextLink_eq o)

/-- After references were settled, those that were published are processed. -/
theorem settle {calls : List Call} (ha : Accounted c r ps) (hc : Collecting c' r' (pub ++ ps))
    (hsettles : Settles calls r c.world.heap pub r' c'.world.heap)
    (hconfig : c'.processor.config = c.processor.config) : Accounted c' r' (pub ++ ps) where
  toCollecting := hc
  pointing hconcurrent k o ho := by
    rw [hconfig] at hconcurrent
    rw [hsettles.target k o ho]
    exact ha.pointing hconcurrent k o (hsettles.listed k o ho)
  processed o ho := by
    rcases List.mem_append.mp ho with ho | ho
    · obtain ⟨k, hl, hfate⟩ := hsettles.fate_of_published ho
      have hkind : c'.world.heap.kindOf o = some k :=
        (hsettles.agrees.kind o (ha.registered.lists_held hl)).trans (ha.kinds hl)
      cases hfate with
      | dropped unlisted link target next why => exact absurd ho unlisted
      | cleared weak listed target next why => exact .other hkind weak target
      | finalized final listed target next why => exact .final (by rw [hkind, final]) next
    · refine (hsettles.fades fun _ _ => ha.kinds).processed (ha.processed o ho) ?_
      exact hsettles.agrees.nextLink (ha.registered.pending.held o ho) fun ⟨k, q, hl⟩ =>
        ha.registered.free k q o hl ho

/-- Precleaning with the marker returns, whatever it is answered. -/
theorem preclean_ok (ha : Accounted c r ps) {τ : Type} (check : YieldCheck τ) (answers : τ)
    (readings : Readings) :
    ∃ out c' r', Step.viaCollector (·, answers) Prod.fst
        (Step.preclean (Marker.hooks.beside τ) (check.beside Marker) readings) c = .ok out c' ∧
      Accounted c' r' ps ∧ c.world.heap.Fades (fun _ => False) c'.world.heap ∧
      c'.world.heap.traits = c.world.heap.traits := by
  obtain ⟨out, c', r', calls, hrun, hc, hsettles, htraits, hconfig⟩ :=
    ha.toCollecting.preclean_ok check answers readings
  have ha' : Accounted c' r' ([] ++ ps) := ha.settle hc hsettles hconfig
  exact ⟨out, c', r', hrun, ha', hsettles.fades fun _ _ => ha.kinds, htraits⟩

/-- A processing cycle with the marker returns.  What it publishes had targets
before, and discovery is over. -/
theorem process_ok {t : Threaded (Cycle Marker)} (ha : Accounted t.state r ps)
    {readings : Readings} (hnow : readings.now < 2 ^ 63) {pooled : Bool}
    (hequipped : Pass.Equipped pooled t) :
    ∃ t' counts pub, Pass.process Marker.hooks readings pooled t = .ok counts t' ∧
      Accounted t'.state Roster.none (pub ++ ps) ∧
      t.state.world.heap.Fades (fun _ => False) t'.state.world.heap ∧
      t'.state.world.heap.traits = t.state.world.heap.traits ∧
      (∀ o ∈ pub, t.state.world.heap.target o ≠ none) ∧
      t'.state.processor.enabled = false := by
  obtain ⟨t', counts, pub, calls, hrun, hc, hsettles, htraits, hconfig, hoff⟩ :=
    ha.toCollecting.process_ok ha.pointing hnow hequipped
  refine ⟨t', counts, pub, hrun, ha.settle hc hsettles hconfig,
    hsettles.fades fun _ _ => ha.kinds, htraits, fun o ho => ?_, hoff⟩
  obtain ⟨k, hl, hfate⟩ := hsettles.fate_of_published ho
  cases hfate with
  | dropped unlisted link target next why => exact absurd ho unlisted
  | cleared weak listed target next why =>
      obtain ⟨t, ht, -⟩ := why
      rw [ht]
      exact Option.some_ne_none t
  | finalized final listed target next why =>
      obtain ⟨t, ht, -⟩ := why
      rw [ht]
      exact Option.some_ne_none t

/-! ### Handing out -/

/-- After a pass of the handler nothing is pending, and what was has no target any more. -/
theorem handOut {handler handler' : Handler} {h : Heap} (ha : Accounted c r ps)
    (hd : HandedOut handler ((c.world.heap.withPending none).detachAll ps) ps handler' h) :
    Accounted { c with world := { c.world with heap := h } } r [] ∧
      c.world.heap.Fades (· ∈ ps) h ∧ ∀ o ∈ ps, h.target o = none := by
  have hrelinks := Heap.relinks_detachAll (c.world.heap.withPending none) ps
  have hkind : ∀ o, h.kindOf o = c.world.heap.kindOf o := fun o => by
    rw [Heap.kindOf_congr (hd.objects.traits.trans hrelinks.objects.traits)]
    rfl
  have htarget : ∀ o, h.target o = if o ∈ ps ∧ c.world.heap.isFinal o = true then none
      else c.world.heap.target o := fun o => by
    rw [hd.target, hrelinks.target_eq, Heap.isFinal_congr hrelinks.objects.traits]
    rfl
  have hholds : ∀ o, h.holds o = c.world.heap.holds o := fun o => by
    rw [Heap.holds_congr (hd.objects.traits.trans hrelinks.objects.traits)]
    rfl
  have hfades : c.world.heap.Fades (· ∈ ps) h := by
    refine ⟨fun o ho => by rwa [hholds], fun o _ => hkind o, fun o _ => ?_, fun o _ ho => ?_⟩
    · rw [htarget]
      split
      · exact .inr rfl
      · exact .inl rfl
    · rw [htarget, if_neg fun hm => ho hm.1]
  have hgone : ∀ o ∈ ps, h.target o = none := fun o ho => by
    cases ha.processed o ho with
    | final kind next => rw [htarget, if_pos ⟨ho, by simp [Heap.isFinal, kind]⟩]
    | other kind weak target => exact hfades.target_none (Heap.holds_of_kindOf kind) target
  have hsane : h.Sane := by
    refine ha.takePending.sane.congr hd.objects.traits fun o t ht => ?_
    rw [hholds]
    rw [htarget] at ht
    split at ht
    · cases ht
    · exact ha.sane.targets o t ht
  refine ⟨.of_sound (ha.takePending.of_heap (w := { c.world with heap := h }) hd.fades.holds
    hd.fades.kind (fun o => hd.link _ (by simp)) (fun o _ => hd.link _ (by simp)) hd.pending hsane)
    ?_ ?_ fun o ho => absurd ho List.not_mem_nil, hfades, hgone⟩
  · intro o ho
    show h.marks o = true
    rw [hd.objects.marks, hrelinks.objects.marks]
    exact ha.waiting o ho
  · intro hconcurrent k o hlisted
    obtain ⟨q, ho⟩ := hlisted
    show h.target o ≠ none
    rw [htarget, if_neg fun hm => ha.registered.free k q o ho hm.1]
    exact ha.pointing hconcurrent k o ⟨q, ho⟩

end Accounted

end Referents
