import Referents.Proofs.CycleOutcome
import Referents.Proofs.Operations

/-!
# The order of the units of a phase

The units of a phase share the marks, the queue of the marker, the head of the
pending chain and the counts of what was dropped.  Still it does not matter in
which order they run: which references a unit spares depends on the marks at the
start of the phase alone, and all that the order decides is in which order their
segments are chained.

* `Phase.spares`, `Phase.leaves` — what the units spare, and what they leave on lists.
* `Marker.UnitsDone`, `Marker.units_ok` — what the units do, in terms of this.
* `Marker.units_commute` — any two orders lead to the same.
-/

namespace Referents

variable {h : Heap} {r : Roster} {ps pub : List Handle} {calls : List Call} {phase : Phase}

/-! ### What is spared -/

/-- With a collector that goes by marks, what is spared are the stranded members. -/
theorem Parted.eq_filter {ms kept : List Handle} {marks : Handle → Bool}
    (hp : Parted h ms kept calls) (hnodup : ms.Nodup)
    (hanswers : ∀ o answer, .isAlive o answer ∈ calls → marks o = answer) :
    kept = ms.filter fun o => h.Strands marks o := by
  have hstranded : ∀ o ∈ kept, h.Strands marks o := by
    intro o ho
    obtain ⟨t, ht, hcall⟩ := hp.dead o ho
    exact ⟨t, ht, hanswers t false hcall⟩
  have hspared : ∀ o ∈ ms, h.Strands marks o → o ∈ kept := by
    intro o ho hs
    by_contra hno
    refine Heap.not_strands_iff.mpr ?_ hs
    exact (hp.alive o ho hno).imp_right fun ⟨t, ht, hcall⟩ => ⟨t, ht, hanswers t true hcall⟩
  refine eq_filter_of_sublist hp.sublist hnodup fun o ho => ?_
  rw [decide_eq_true_iff]
  exact ⟨hstranded o, hspared o ho⟩

/-- The members that a phase spares on the heap `h`: all final references when these are
kept alive, and the stranded ones else. -/
def Phase.spares (phase : Phase) (h : Heap) (r : Roster) : Roster := fun k q =>
  if phase = .keepAliveFinal then r k q else (r k q).filter fun o => h.Strands h.marks o

/-- A phase spares some members of each list, in their order. -/
theorem Phase.spares_sublist (phase : Phase) (h : Heap) (r : Roster) (k : RefKind) (q : Nat) :
    (phase.spares h r k q).Sublist (r k q) := by
  unfold spares
  split
  · exact .refl _
  · exact List.filter_sublist

/-- What a phase leaves of a roster if it spares the members that `spared` gives. -/
def Phase.leaves (phase : Phase) (r spared : Roster) : Roster := fun k q =>
  if k ∈ phase.kinds then if k ∈ phase.finishes then [] else spared k q else r k q

/-- What the units of several queues chain, the last one first. -/
def Phase.chains (phase : Phase) (spared : Roster) (order : List Nat) : List Handle :=
  order.reverse.flatMap (phase.segment spared)

/-- In another order of the units the same references come to the chain. -/
theorem Phase.chains_perm (phase : Phase) (spared : Roster) {order order' : List Nat}
    (horder : order.Perm order') :
    (phase.chains spared order).Perm (phase.chains spared order') :=
  ((order.reverse_perm.trans horder).trans order'.reverse_perm.symm).flatMap_right _

/-- What a queue brings to the chain depends on what its own lists spare. -/
theorem Phase.segment_congr {spared spared' : Roster} {q : Nat}
    (hsame : ∀ k ∈ phase.kinds, spared k q = spared' k q) :
    phase.segment spared q = phase.segment spared' q :=
  List.flatMap_congr fun k hk => hsame k (phase.publishes_sub k hk)

/-! ### What is counted -/

/-- Two counts are tallied in any order. -/
theorem PerKind.tally_comm (d : PerKind Nat) (j k : RefKind) (m n : Nat) :
    (d.tally j m).tally k n = (d.tally k n).tally j m := by
  have hwrap : ∀ a b c, wrapCount (wrapCount (a + b) + c) = wrapCount (wrapCount (a + c) + b) := by
    intro a b c
    rw [wrapCount, wrapCount, wrapCount, wrapCount, Nat.mod_add_mod, Nat.mod_add_mod,
      Nat.add_right_comm]
  cases j <;> cases k <;> simp [tally, set, get, hwrap]

/-- A count may be tallied before or after all others. -/
theorem PerKind.tally_foldl (kinds : List RefKind) (count : RefKind → Nat) (d : PerKind Nat)
    (j : RefKind) (m : Nat) :
    kinds.foldl (fun d k => d.tally k (count k)) (d.tally j m) =
      (kinds.foldl (fun d k => d.tally k (count k)) d).tally j m := by
  induction kinds generalizing d with
  | nil => rfl
  | cons k rest ih => rw [List.foldl_cons, List.foldl_cons, PerKind.tally_comm, ih]

/-- Units count what they drop in any order. -/
theorem PerKind.tallies_comm (kinds : List RefKind) (count count' : RefKind → Nat)
    (d : PerKind Nat) :
    kinds.foldl (fun d k => d.tally k (count k))
        (kinds.foldl (fun d k => d.tally k (count' k)) d) =
      kinds.foldl (fun d k => d.tally k (count' k))
        (kinds.foldl (fun d k => d.tally k (count k)) d) := by
  suffices h : ∀ kinds' : List RefKind, ∀ d : PerKind Nat,
      kinds'.foldl (fun d k => d.tally k (count k))
          (kinds.foldl (fun d k => d.tally k (count' k)) d) =
        kinds.foldl (fun d k => d.tally k (count' k))
          (kinds'.foldl (fun d k => d.tally k (count k)) d) from h kinds d
  intro kinds'
  induction kinds' with
  | nil => exact fun _ => rfl
  | cons k rest ih =>
      intro d
      rw [List.foldl_cons, List.foldl_cons, ← PerKind.tally_foldl, ih]

/-- What two queues drop is counted in any order. -/
theorem Phase.tally_comm (phase : Phase) (r spared : Roster) (d : PerKind Nat) (q q' : Nat) :
    phase.tally r spared (phase.tally r spared d q) q' =
      phase.tally r spared (phase.tally r spared d q') q := by
  by_cases hphase : phase = .keepAliveFinal
  · simp only [tally, if_pos hphase]
  · simp only [tally, if_neg hphase]
    exact PerKind.tallies_comm _ _ _ d

/-- What a queue counts depends on what its own lists spare. -/
theorem Phase.tally_congr {spared spared' : Roster} (d : PerKind Nat) {q : Nat}
    (hsame : ∀ k ∈ phase.kinds, spared k q = spared' k q) :
    phase.tally r spared d q = phase.tally r spared' d q := by
  unfold tally
  split
  · rfl
  · exact List.foldl_ext _ _ _ fun d k hk => by rw [hsame k hk]

namespace Marker

variable {c c' : Cycle Marker} {w w₀ : World Marker}

/-! ### What the units of a phase do -/

/-- What the marker keeps to in a phase that started in the world `w₀`. -/
def Serving (phase : Phase) (w₀ : World Marker) : List Call → World Marker → Prop :=
  match phase with
  | .keepAliveFinal => Reviving w₀
  | _ => Steady w₀

/-- The marker does for a phase what its units rely on. -/
theorem serves (phase : Phase) (w₀ : World Marker) : hooks.Serves phase (Serving phase w₀) := by
  cases phase with
  | softWeakFinal => exact steady_resolving w₀
  | keepAliveFinal => exact reviving_keeping w₀
  | phantom => exact steady_resolving w₀

/-- A phase starts with nothing called and the world as it is. -/
theorem Serving.start (phase : Phase) (hmarking : Marking w)
    (hresting : w.collector.queue.items = []) : Serving phase w [] w := by
  cases phase with
  | softWeakFinal => exact Steady.start hresting
  | keepAliveFinal => exact Reviving.start hmarking hresting
  | phantom => exact Steady.start hresting

/-- Unless final referents are kept alive, the marker is steady. -/
theorem Serving.steady (hs : Serving phase w₀ calls w) (hphase : phase ≠ .keepAliveFinal) :
    Steady w₀ calls w := by
  cases phase with
  | softWeakFinal => exact hs
  | keepAliveFinal => exact absurd rfl hphase
  | phantom => exact hs

/-- The marker allocates nothing in a phase. -/
theorem Serving.size (hs : Serving phase w₀ calls w) : w.heap.size = w₀.heap.size := by
  cases phase with
  | softWeakFinal => exact Steady.objects hs |>.size
  | keepAliveFinal => exact Reviving.size hs
  | phantom => exact Steady.objects hs |>.size

/-- What becomes of the cycle `c` with roster `r` and pending chain `ps` when the units
of the queues in `order` have run. -/
structure UnitsDone (phase : Phase) (r : Roster) (ps : List Handle) (c : Cycle Marker)
    (order : List Nat) (c' : Cycle Marker) : Prop where
  registered : Registered c'.processor c'.world.heap
    (phase.leaves r (phase.spares c.world.heap r))
    (phase.chains (phase.spares c.world.heap r) order ++ ps)
  queues : c'.processor.queues = c.processor.queues
  marks : ∀ x, c'.world.heap.marks x = true ↔ c.world.heap.Reaches
    (fun y => c.world.heap.marks y = true ∨ phase = .keepAliveFinal ∧
      ∃ o, r.lists .final o ∧ c.world.heap.target o = some y) x
  settles : ∃ calls, Settles calls r c.world.heap
    (phase.chains (phase.spares c.world.heap r) order)
    (phase.leaves r (phase.spares c.world.heap r)) c'.world.heap
  size : c'.world.heap.size = c.world.heap.size
  dropped : c'.times.dropped =
    order.foldl (phase.tally r (phase.spares c.world.heap r)) c.times.dropped

/-- The units that ran in some order have swept the lists of their queues. -/
theorem sweep_ok (hr : Registered c.processor c.world.heap r ps)
    (hpoints : Pointing c.processor.config.concurrentDiscovery c.world.heap r)
    (hfinals : phase = .keepAliveFinal → ∀ o, r.lists .final o →
      c.world.heap.target o ≠ none ∧ c.world.heap.nextLink o = none)
    (hmarking : Marking c.world) (hresting : c.world.collector.queue.items = [])
    (hroom : c.times.HasRoom c.processor.queues) (readings : Readings) {order : List Nat}
    (hnodup : order.Nodup)
    (hlt : ∀ q ∈ order, q < c.processor.queues) :
    ∃ c' calls r' pub spared, order.forM (Step.unit hooks readings phase) c = .ok () c' ∧
      Progress (Serving phase c.world) [] r ps c calls r' pub c' ∧
      Swept phase c.world.heap r order spared calls r' pub ∧
      c'.times.dropped = order.foldl (phase.tally r spared) c.times.dropped := by
  obtain ⟨c', hrun, calls, r', pub, spared, hp, hs, hdropped⟩ := forM_ok
    (fun done c' => ∃ calls r' pub spared,
      Progress (Serving phase c.world) [] r ps c calls r' pub c' ∧
      Swept phase c.world.heap r done spared calls r' pub ∧
      c'.times.dropped = done.foldl (phase.tally r spared) c.times.dropped)
    (f := Step.unit hooks readings phase) (l := order)
    (by
      intro done q rest c₁ hitems hswept
      obtain ⟨calls, r', pub, spared, hp, hs, hdropped⟩ := hswept
      have hq : q < c₁.processor.queues := by
        rw [hp.queues_eq]
        exact hlt q (by simp [hitems])
      have hnew : q ∉ done := by
        rw [hitems] at hnodup
        exact fun hm => List.disjoint_of_nodup_append hnodup hm List.mem_cons_self
      obtain ⟨c₂, calls', r'', pub', spared', hunit, hp', hs', hsame, htally⟩ :=
        hp.unit_ok (serves phase c.world) hq hroom readings hs hnew hfinals
      refine ⟨c₂, hunit, calls', r'', pub', spared', hp', hs', ?_⟩
      rw [htally, hdropped, List.foldl_append]
      -- the counts of the units before do not depend on the last one
      have hearlier : done.foldl (phase.tally r spared) c.times.dropped =
          done.foldl (phase.tally r spared') c.times.dropped :=
        List.foldl_ext _ _ _ fun d q' hq' => phase.tally_congr d fun k _ => (hsame k q' hq').symm
      rw [hearlier]
      rfl)
    ⟨[], r, [], Roster.none, .refl hr hpoints (.start phase hmarking hresting), .start _ _ _, rfl⟩
  exact ⟨c', calls, r', pub, spared, hrun, hp, hs, hdropped⟩

/-- In either kind of phase it is known beforehand what is spared. -/
theorem spared_eq {order : List Nat} {spared r' : Roster}
    (hr : Registered c.processor c.world.heap r ps)
    (hs : Swept phase c.world.heap r order spared calls r' pub)
    (hserving : Serving phase c.world calls w) {k : RefKind} (hk : k ∈ phase.kinds) {q : Nat}
    (hq : q ∈ order) : spared k q = phase.spares c.world.heap r k q := by
  by_cases hphase : phase = .keepAliveFinal
  · subst hphase
    have hk : k = .final := by simpa [Phase.kinds] using hk
    rw [hk, Phase.spares, if_pos rfl, hs.whole rfl q hq]
  · rw [Phase.spares, if_neg hphase]
    exact (hs.parted hphase k hk q hq).eq_filter ((hr.spread k).nodup q)
      (hserving.steady hphase).answers

/-- The marker has kept alive exactly the targets of the final references. -/
theorem Reviving.kept_iff {r' : Roster} (hrev : Reviving w₀ calls w)
    (hs : Settles calls r w₀.heap pub r' w.heap) (hgone : ∀ o, ¬ r'.lists .final o)
    (htargets : ∀ o, r.lists .final o → w₀.heap.target o ≠ none)
    (hkept : ∀ o t, .keepAlive o t ∈ calls → r.lists .final o ∧ w₀.heap.target o = some t)
    (y : Handle) :
    (∃ o, .keepAlive o y ∈ calls) ↔ ∃ o, r.lists .final o ∧ w₀.heap.target o = some y := by
  refine ⟨fun hcall => hcall.imp fun o => hkept o y, ?_⟩
  intro hlisted
  obtain ⟨o, ho, ht⟩ := hlisted
  refine ⟨o, ?_⟩
  cases hs.fate .final o ho (hgone o) with
  | dropped unlisted link target next why =>
      rcases why with hnone | ⟨x, -, hcall⟩
      · exact absurd hnone (htargets o ho)
      · exact absurd hcall (hrev.silent x true)
  | cleared weak listed target next why => exact absurd rfl weak
  | finalized final listed target next why =>
      obtain ⟨x, hx, hcall⟩ := why
      rw [ht] at hx
      cases hx
      exact hcall

/-- The units of a phase, in any order. -/
theorem units_ok (hr : Registered c.processor c.world.heap r ps)
    (hpoints : Pointing c.processor.config.concurrentDiscovery c.world.heap r)
    (hfinals : phase = .keepAliveFinal → ∀ o, r.lists .final o →
      c.world.heap.target o ≠ none ∧ c.world.heap.nextLink o = none)
    (hedges : c.world.heap.EdgesHeld)
    (hclosed : c.world.heap.Closed fun o => c.world.heap.marks o = true)
    (hresting : c.world.collector.queue.items = [])
    (hroom : c.times.HasRoom c.processor.queues) (readings : Readings) {order : List Nat}
    (horder : order.Perm (List.range c.processor.queues)) :
    ∃ c', order.forM (Step.unit hooks readings phase) c = .ok () c' ∧
      UnitsDone phase r ps c order c' := by
  have hmem : ∀ q, q ∈ order ↔ q < c.processor.queues := fun q => by
    rw [horder.mem_iff, List.mem_range]
  obtain ⟨c', calls, r', pub, spared, hrun, hp, hs, hdropped⟩ := sweep_ok hr hpoints hfinals
    (.of_closed hedges hresting hclosed) hresting hroom readings
    (horder.nodup_iff.mpr List.nodup_range) fun q hq => (hmem q).mp hq
  have hserving : Serving phase c.world calls c'.world := hp.inv
  have hspared : ∀ k ∈ phase.kinds, ∀ q ∈ order, spared k q = phase.spares c.world.heap r k q :=
    fun k hk q hq => spared_eq hr hs hserving hk hq
  have hpub : pub = phase.chains (phase.spares c.world.heap r) order := by
    rw [hs.published, Phase.chains]
    refine List.flatMap_congr fun q hq => ?_
    exact phase.segment_congr fun k hk => hspared k hk q (List.mem_reverse.mp hq)
  have hleaves : r' = phase.leaves r (phase.spares c.world.heap r) := by
    funext k q
    by_cases hk : k ∈ phase.kinds
    · by_cases hq : q ∈ order
      · rw [hs.worked k hk q hq, Phase.leaves, if_pos hk, hspared k hk q hq]
      · have hnone : r k q = [] := hr.beyond (by rw [hmem] at hq; omega)
        have hnone' : phase.spares c.world.heap r k q = [] := by
          rw [← List.sublist_nil, ← hnone]
          exact phase.spares_sublist c.world.heap r k q
        rw [hs.others k q (.inl hq), Phase.leaves, if_pos hk, hnone, hnone', ite_self]
    · rw [hs.others k q (.inr hk), Phase.leaves, if_neg hk]
  rw [hpub, hleaves] at hp
  refine ⟨c', hrun, ?_⟩
  constructor
  case registered => exact hp.registered
  case queues => exact hp.queues_eq
  case settles => exact ⟨calls, hp.settles⟩
  case size => exact hserving.size
  case dropped =>
    rw [hdropped]
    exact List.foldl_ext _ _ _ fun d q hq => phase.tally_congr d fun k hk => hspared k hk q hq
  case marks =>
    intro x
    by_cases hphase : phase = .keepAliveFinal
    · subst hphase
      have hrev : Reviving c.world calls c'.world := hserving
      have hkept := hrev.kept_iff hp.settles
        (fun o ⟨q, ho⟩ => by simp [Phase.leaves, Phase.kinds, Phase.finishes] at ho)
        (fun o ho => (hfinals rfl o ho).1) (hs.kept rfl)
      rw [hrev.marks_iff hs.rested]
      simp only [hkept, true_and]
    · rw [(hserving.steady hphase).objects.marks]
      constructor
      · exact fun hx => .base (.inl hx)
      · apply Heap.reaches_of_closed _ hclosed
        exact fun y hy => hy.resolve_right fun hkeep => hphase hkeep.1

/-! ### Two orders -/

variable {c₁ c₂ : Cycle Marker} {order₁ order₂ : List Nat}

namespace UnitsDone

/-- Units in two orders end with the same lists. -/
theorem list_eq (h₁ : UnitsDone phase r ps c order₁ c₁) (h₂ : UnitsDone phase r ps c order₂ c₂)
    (k : RefKind) {q : Nat} (hq : q < c.processor.queues) :
    c₁.processor.list k q = c₂.processor.list k q := by
  obtain ⟨l₁, hl₁, hlists₁⟩ := h₁.registered.list_ok (k := k) (by rw [h₁.queues]; exact hq)
  obtain ⟨l₂, hl₂, hlists₂⟩ := h₂.registered.list_ok (k := k) (by rw [h₂.queues]; exact hq)
  rw [hl₁, hl₂, hlists₁.unique hlists₂]

/-- A list that a phase finishes is empty afterwards. -/
theorem list_finished (h : UnitsDone phase r ps c order₁ c₁) {k : RefKind}
    (hk : k ∈ phase.finishes) {q : Nat} (hq : q < c.processor.queues) :
    c₁.processor.list k q = .ok .empty := by
  obtain ⟨l, hl, hlists⟩ := h.registered.list_ok (k := k) (by rw [h.queues]; exact hq)
  rw [Phase.leaves, if_pos (phase.finishes_sub k hk), if_pos hk] at hlists
  rw [hl, hlists.eq_empty]

/-- The members of a list are what its phase leaves of them. -/
theorem members_eq (h : UnitsDone phase r ps c order₁ c₁) (k : RefKind) (q : Nat) :
    c₁.members k q = phase.leaves r (phase.spares c.world.heap r) k q :=
  h.registered.members_eq k q

/-- Units in two orders end with the same targets and the same next links. -/
theorem link_eq (h₁ : UnitsDone phase r ps c order₁ c₁) (h₂ : UnitsDone phase r ps c order₂ c₂)
    (hr : Registered c.processor c.world.heap r ps) (horder : order₁.Perm order₂) (o : Handle) :
    c₁.world.heap.target o = c₂.world.heap.target o ∧
      c₁.world.heap.nextLink o = c₂.world.heap.nextLink o := by
  classical
  by_cases ho : c.world.heap.holds o = true
  · obtain ⟨calls₁, hs₁⟩ := h₁.settles
    obtain ⟨calls₂, hs₂⟩ := h₂.settles
    have hmem := (phase.chains_perm (phase.spares c.world.heap r) horder).mem_iff (a := o)
    rw [hs₁.target_eq hr.disjoint ho, hs₂.target_eq hr.disjoint ho,
      hs₁.nextLink_eq hr.disjoint ho, hs₂.nextLink_eq hr.disjoint ho]
    exact ⟨if_congr (and_congr_left' hmem) rfl rfl, if_congr (and_congr_left' hmem) rfl rfl⟩
  · have ho₁ : ¬ c₁.world.heap.holds o = true := by rwa [Heap.holds, h₁.size]
    have ho₂ : ¬ c₂.world.heap.holds o = true := by rwa [Heap.holds, h₂.size]
    exact ⟨(Heap.link_of_not_holds ho₁).trans (Heap.link_of_not_holds ho₂).symm,
      (Heap.link_of_not_holds ho₁).trans (Heap.link_of_not_holds ho₂).symm⟩

end UnitsDone

/-- The units of a phase may run in any two orders of the queues: both return, with the
same marks, targets and next links, the same lists and the same counts of what was
dropped.  The lists of the kinds that the phase finishes are empty, and of the others
of its kinds the stranded members are left.  What is chained in front of the pending
chain are the references that were spared, each once, and only the order of the
queues whose segments follow each other is different. -/
theorem units_commute (hr : Registered c.processor c.world.heap r ps)
    (hpoints : Pointing c.processor.config.concurrentDiscovery c.world.heap r)
    (hfinals : phase = .keepAliveFinal → ∀ o, r.lists .final o →
      c.world.heap.target o ≠ none ∧ c.world.heap.nextLink o = none)
    (hedges : c.world.heap.EdgesHeld)
    (hclosed : c.world.heap.Closed fun o => c.world.heap.marks o = true)
    (hresting : c.world.collector.queue.items = [])
    (hroom : c.times.HasRoom c.processor.queues) (readings₁ readings₂ : Readings)
    (horder₁ : order₁.Perm (List.range c.processor.queues))
    (horder₂ : order₂.Perm (List.range c.processor.queues)) :
    ∃ c₁ c₂, order₁.forM (Step.unit hooks readings₁ phase) c = .ok () c₁ ∧
      order₂.forM (Step.unit hooks readings₂ phase) c = .ok () c₂ ∧
      c₁.world.heap.marks = c₂.world.heap.marks ∧
      (∀ o, c₁.world.heap.target o = c₂.world.heap.target o ∧
        c₁.world.heap.nextLink o = c₂.world.heap.nextLink o) ∧
      (∀ k q, q < c.processor.queues → c₁.processor.list k q = c₂.processor.list k q) ∧
      (∀ k q, c₁.members k q = c₂.members k q) ∧
      (∀ k ∈ phase.finishes, ∀ q < c.processor.queues, c₁.processor.list k q = .ok .empty) ∧
      (∀ k ∈ phase.kinds, k ∉ phase.finishes → ∀ q, c₁.members k q =
        (r k q).filter fun o => c.world.heap.Strands c.world.heap.marks o) ∧
      c₁.times.dropped = c₂.times.dropped ∧
      c₁.world.heap.chain c₁.world.heap.pendingHead = ⟨order₁.reverse.flatMap
        (phase.segment (phase.spares c.world.heap r)) ++ ps, true⟩ ∧
      c₂.world.heap.chain c₂.world.heap.pendingHead = ⟨order₂.reverse.flatMap
        (phase.segment (phase.spares c.world.heap r)) ++ ps, true⟩ ∧
      c₁.pending.Nodup ∧ c₁.pending.Perm c₂.pending := by
  have horder : order₁.Perm order₂ := horder₁.trans horder₂.symm
  obtain ⟨c₁, hrun₁, h₁⟩ :=
    units_ok hr hpoints hfinals hedges hclosed hresting hroom readings₁ horder₁
  obtain ⟨c₂, hrun₂, h₂⟩ :=
    units_ok hr hpoints hfinals hedges hclosed hresting hroom readings₂ horder₂
  have hpending₁ : c₁.pending = phase.chains (phase.spares c.world.heap r) order₁ ++ ps :=
    congrArg ChainView.members h₁.registered.pending.chain_eq
  have hpending₂ : c₂.pending = phase.chains (phase.spares c.world.heap r) order₂ ++ ps :=
    congrArg ChainView.members h₂.registered.pending.chain_eq
  refine ⟨c₁, c₂, hrun₁, hrun₂, ?_, h₁.link_eq h₂ hr horder,
    fun k q hq => h₁.list_eq h₂ k hq, ?_, fun k hk q hq => h₁.list_finished hk hq, ?_, ?_,
    h₁.registered.pending.chain_eq, h₂.registered.pending.chain_eq,
    hpending₁ ▸ h₁.registered.pending.nodup, ?_⟩
  · funext x
    rw [Bool.eq_iff_iff, h₁.marks, h₂.marks]
  · exact fun k q => (h₁.members_eq k q).trans (h₂.members_eq k q).symm
  · intro k hk hleft q
    have hphase : phase ≠ .keepAliveFinal := by
      intro hphase
      subst hphase
      exact hleft hk
    rw [h₁.members_eq, Phase.leaves, if_pos hk, if_neg hleft, Phase.spares, if_neg hphase]
  · rw [h₁.dropped, h₂.dropped]
    have : RightCommutative (phase.tally r (phase.spares c.world.heap r)) :=
      ⟨phase.tally_comm r (phase.spares c.world.heap r)⟩
    exact horder.foldl_eq _
  · rw [hpending₁, hpending₂]
    exact (phase.chains_perm _ horder).append_right ps

/-! ### Two final references on two queues -/

/-- An object with an edge to another one, and a final reference to each. -/
def twoFinalsHeap : Heap where
  slots := (((Table.empty.push
    { Slot.fresh none .young none with edges := [.low 1] }).push
    (.fresh none .young none)).push
    { Slot.fresh (some .final) .young (some (.low 0)) with
      discovered := .of (some (.low 2)) }).push
    { Slot.fresh (some .final) .young (some (.low 1)) with
      discovered := .of (some (.low 3)) }
  pending := .null

/-- Each of the final references is on a queue of its own. -/
def twoFinalsRoster : Roster := fun k q =>
  match k, q with
  | .final, 0 => [.low 2]
  | .final, 1 => [.low 3]
  | _, _ => []

/-- A cycle before the final references are kept alive. -/
def twoFinalsCycle : Cycle Marker where
  world := ⟨twoFinalsHeap, {}⟩
  processor := {
    config := pairConfig, scope := .wholeHeap, knownAlive := none, enabled := false
    multiDiscovery := false, degree := 2, turn := 0
    lists := ⟨#[.empty, .empty], #[.empty, .empty],
      #[⟨.of (some (.low 2)), 1⟩, ⟨.of (some (.low 3)), 1⟩], #[.empty, .empty]⟩
    clock := ⟨0⟩, snapshot := 0, policy := .always, clearAll := false
    journal := { config := {} } }
  times := .create 2
  sink := {}

/-- The members of the example's lists are its two final references. -/
theorem mem_twoFinalsRoster {k : RefKind} {q : Nat} {o : Handle} (ho : o ∈ twoFinalsRoster k q) :
    k = .final ∧ (q = 0 ∧ o = .low 2 ∨ q = 1 ∧ o = .low 3) := by
  unfold twoFinalsRoster at ho
  split at ho
  · exact ⟨rfl, .inl ⟨rfl, List.mem_singleton.mp ho⟩⟩
  · exact ⟨rfl, .inr ⟨rfl, List.mem_singleton.mp ho⟩⟩
  · cases ho

/-- The two final references are on two lists, and nothing is pending. -/
theorem twoFinals_registered :
    Registered twoFinalsCycle.processor twoFinalsHeap twoFinalsRoster [] := by
  constructor
  case size => intro k; cases k <;> rfl
  case spread =>
    intro k
    constructor
    case listed =>
      intro q l hl
      match q with
      | 0 => cases k <;> (cases hl; exact ⟨by decide, by decide, by decide, by decide, by decide⟩)
      | 1 => cases k <;> (cases hl; exact ⟨by decide, by decide, by decide, by decide, by decide⟩)
      | q + 2 => cases k <;> cases hl
    case beyond =>
      intro q hq
      match q with
      | 0 => cases k <;> exact absurd hq (by decide)
      | 1 => cases k <;> exact absurd hq (by decide)
      | q + 2 => cases k <;> rfl
    case apart =>
      intro q q' o ho ho'
      obtain ⟨-, ⟨rfl, rfl⟩ | ⟨rfl, rfl⟩⟩ := mem_twoFinalsRoster ho
      · exact ((mem_twoFinalsRoster ho').2.resolve_right fun h => absurd h.2 (by decide)).1.symm
      · exact ((mem_twoFinalsRoster ho').2.resolve_left fun h => absurd h.2 (by decide)).1.symm
  case kinds =>
    intro k q o ho
    obtain ⟨rfl, ⟨-, rfl⟩ | ⟨-, rfl⟩⟩ := mem_twoFinalsRoster ho <;> decide
  case pending => exact ⟨by decide, trivial, List.nodup_nil, by simp⟩
  case free => simp

/-- Whichever queue comes first, both final references are chained, and both their
targets are marked. -/
theorem units_commute_of_twoFinals :
    Registered twoFinalsCycle.processor twoFinalsHeap twoFinalsRoster [] ∧
    ∃ c₁ c₂, [0, 1].forM (Step.unit hooks {} .keepAliveFinal) twoFinalsCycle = .ok () c₁ ∧
      [1, 0].forM (Step.unit hooks {} .keepAliveFinal) twoFinalsCycle = .ok () c₂ ∧
      c₁.world.heap.marks = c₂.world.heap.marks ∧
      c₁.pending = [.low 3, .low 2] ∧ c₂.pending = [.low 2, .low 3] := by
  have hlisted : ∀ k o, twoFinalsRoster.lists k o →
      (twoFinalsHeap.target o).any twoFinalsHeap.holds = true ∧
        twoFinalsHeap.nextLink o = none := by
    intro k o ho
    obtain ⟨q, ho⟩ := ho
    obtain ⟨rfl, ⟨-, rfl⟩ | ⟨-, rfl⟩⟩ := mem_twoFinalsRoster ho <;> exact ⟨by decide, by decide⟩
  have hsome : ∀ k o, twoFinalsRoster.lists k o → twoFinalsHeap.target o ≠ none := by
    intro k o ho hnone
    simpa [hnone] using (hlisted k o ho).1
  have hpoints : Pointing twoFinalsCycle.processor.config.concurrentDiscovery twoFinalsHeap
      twoFinalsRoster := by
    constructor
    case target => exact fun k o ho t ht => by simpa [ht] using (hlisted k o ho).1
    case null => exact fun k o ho ht => absurd ht (hsome k o ho)
  have hfinals : Phase.keepAliveFinal = .keepAliveFinal → ∀ o, twoFinalsRoster.lists .final o →
      twoFinalsHeap.target o ≠ none ∧ twoFinalsHeap.nextLink o = none :=
    fun _ o ho => ⟨hsome .final o ho, (hlisted .final o ho).2⟩
  obtain ⟨c₁, c₂, hrun₁, hrun₂, hmarks, -, -, -, -, -, -, hchain₁, hchain₂, -⟩ :=
    units_commute (c := twoFinalsCycle) twoFinals_registered hpoints hfinals
      (Heap.forall_edgesOf (P := fun _ q => twoFinalsHeap.holds q = true) (by decide))
      (fun o ho p hp => Heap.forall_edgesOf (h := twoFinalsHeap)
        (P := fun marked q => marked = true → twoFinalsHeap.marks q = true) (by decide) o p hp ho)
      rfl (by decide) {} {} (by decide : [0, 1].Perm _) (by decide : [1, 0].Perm _)
  exact ⟨twoFinals_registered, c₁, c₂, hrun₁, hrun₂, hmarks,
    congrArg ChainView.members hchain₁, congrArg ChainView.members hchain₂⟩

end Marker

end Referents
