import Referents.Proofs.Degree
import Referents.Proofs.Progress

/-!
# What a phase does

A phase is run in units, one for each queue.  The work of a unit is confined to
the lists of its queue, so after some units the lists of the queues that they
visited are **swept** and the others are as they were.  Either all queues are
visited, or only the active ones after the others were emptied by balancing;
in both cases the phase leaves none of the references it has to finish.

* `Swept` — the lists of the queues that were visited are done.
* `Progress.unit_ok`, `Pass.dispatch_ok` — one unit, and all of them.
* `Pass.phase_ok` — a phase returns, with or without references, with or
  without a pool, and with any degree that narrowing chooses.
-/

namespace Referents

variable {γ : Type} {hooks : Hooks γ} {I : List Call → World γ → Prop}
variable {prev calls more : List Call} {r₀ r r' : Roster} {ps₀ pub pub' : List Handle}
variable {c₀ c c' : Cycle γ} {readings : Readings} {phase : Phase}

/-- The collector does what a phase needs. -/
def Hooks.Serves (hooks : Hooks γ) (phase : Phase) (I : List Call → World γ → Prop) : Prop :=
  match phase with
  | .keepAliveFinal => hooks.KeepingFinals I
  | _ => hooks.Resolving I

/-- Whatever a phase asks of the collector, it stores links only. -/
theorem Hooks.Serves.storing (hh : hooks.Serves phase I) : hooks.Storing I := by
  cases phase with
  | softWeakFinal => exact (show hooks.Resolving I from hh).toStoring
  | keepAliveFinal => exact (show hooks.KeepingFinals I from hh).toStoring
  | phantom => exact (show hooks.Resolving I from hh).toStoring

/-! ### The lists of one queue -/

/-- A sublist of a list without repetitions is told by which members it has. -/
theorem eq_filter_of_sublist {ms kept : List Handle} {p : Handle → Bool}
    (hsub : kept.Sublist ms) (hnodup : ms.Nodup) (hmem : ∀ o ∈ ms, o ∈ kept ↔ p o = true) :
    kept = ms.filter p := by
  have hself : kept.filter p = kept :=
    List.filter_eq_self.mpr fun o ho => (hmem o (hsub.subset ho)).mp ho
  have hsub' : kept.Sublist (ms.filter p) := by
    rw [← hself]
    exact hsub.filter p
  apply hsub'.eq_of_length_le
  apply (List.subperm_of_subset (hnodup.filter p) _).length_le
  intro o ho
  rw [List.mem_filter] at ho
  exact (hmem o ho.1).mpr ho.2

/-- The members `ms` of a list are parted into those in `kept`, whose targets are not
alive, and the others. -/
structure Parted (h : Heap) (ms kept : List Handle) (calls : List Call) : Prop where
  sublist : kept.Sublist ms
  dead : ∀ o ∈ kept, ∃ t, h.target o = some t ∧ .isAlive t false ∈ calls
  alive : ∀ o ∈ ms, o ∉ kept →
    h.target o = none ∨ ∃ t, h.target o = some t ∧ .isAlive t true ∈ calls

/-- A list is parted in the same way if its targets stay and more is called. -/
theorem Parted.congr {h g : Heap} {ms kept : List Handle} (hp : Parted h ms kept calls)
    (htarget : ∀ o ∈ ms, g.target o = h.target o) (hcalls : ∀ x ∈ calls, x ∈ more) :
    Parted g ms kept more where
  sublist := hp.sublist
  dead o ho := by
    obtain ⟨t, ht, hcall⟩ := hp.dead o ho
    exact ⟨t, (htarget o (hp.sublist.subset ho)).trans ht, hcalls _ hcall⟩
  alive o ho hno := by
    rw [htarget o ho]
    exact (hp.alive o ho hno).imp_right fun ⟨t, ht, hcall⟩ => ⟨t, ht, hcalls _ hcall⟩

/-- A list that was resolved is parted into what was kept and what was dropped. -/
theorem QueueResolved.parted {k : RefKind} {q : Nat} {ps kept : List Handle}
    (hr : QueueResolved I prev r ps k q c more kept c') :
    Parted c.world.heap (r k q) kept more :=
  ⟨hr.sublist, hr.verdicts.spared, hr.verdicts.dropped⟩

/-- One more number of dropped references of a kind. -/
def PerKind.tally (d : PerKind Nat) (k : RefKind) (n : Nat) : PerKind Nat :=
  d.set k (wrapCount (d.get k + n))

/-- What is left of a roster when the lists of some kinds of a queue were resolved and
the members that `kept` gives were spared. -/
def Roster.resolved (r : Roster) (kinds : List RefKind) (q : Nat) (kept : RefKind → List Handle) :
    Roster := fun k q' =>
  if k ∈ kinds ∧ q' = q then (if (k != .final) = true then [] else kept k) else r k q'

/-- At any time of a cycle that began in the state `c₀`, the step of a kind resolves its list
in the queue `q`. -/
def Resolves (I : List Call → World γ → Prop) (prev : List Call) (r₀ : Roster)
    (ps₀ : List Handle) (c₀ : Cycle γ) (q : Nat) (step : RefKind → Step γ Unit) : Prop :=
  ∀ k calls r pub c, Progress I prev r₀ ps₀ c₀ calls r pub c → q < c.processor.queues →
    ∃ c' more kept, step k c = .ok () c' ∧
      Progress I prev r₀ ps₀ c₀ (calls ++ more)
        (r.set k q (if (k != .final) = true then [] else kept))
        ((if (k != .final) = true then kept else []) ++ pub) c' ∧
      QueueResolved I (prev ++ calls) r (pub ++ ps₀) k q c more kept c'

/-- Resolving the list of a queue is such a step. -/
theorem resolves_resolveQueue (hh : hooks.Resolving I) (q : Nat) :
    Resolves I prev r₀ ps₀ c₀ q fun k => Step.resolveQueue hooks (k != .final) q k :=
  fun k _ _ _ _ hp hq => hp.resolveQueue_ok hh k hq

/-- Only lists, setup and counts matter to a list that was resolved. -/
theorem QueueResolved.alike {k : RefKind} {q : Nat} {ps kept : List Handle}
    (hr : QueueResolved I prev r ps k q c more kept c') {c'' : Cycle γ} (h : c'.Alike c'') :
    QueueResolved I prev r ps k q c more kept c'' where
  registered := by
    rw [h.world]
    exact hr.registered.of_lists h.lists (Processor.config_eq_of_setup h.setup)
  sublist := hr.sublist
  gone := by rw [h.world]; exact hr.gone
  verdicts := by rw [h.world]; exact hr.verdicts
  inv := by rw [h.world]; exact hr.inv
  setup := h.setup.trans hr.setup
  degree := h.degree.trans hr.degree
  turn := h.turn.trans hr.turn
  discovered := h.discovered.trans hr.discovered
  dropped := h.dropped.trans hr.dropped
  maxWorkers := h.maxWorkers.trans hr.maxWorkers

/-- Taking the time besides does not matter to the lists. -/
theorem resolves_resolveTimed (hh : hooks.Resolving I)
    (hroom : c₀.times.HasRoom c₀.processor.queues) (readings : Readings) (q : Nat) :
    Resolves I prev r₀ ps₀ c₀ q fun k => Step.resolveTimed hooks readings (k != .final) q k := by
  intro k calls r pub c hp hq
  obtain ⟨c₁, more, kept, hresolve, hp₁, hresolved⟩ := hp.resolveQueue_ok hh k hq
  obtain ⟨c₂, hrecord, halike, hp₂⟩ := hp₁.recordWorker_ok hroom
    (by rw [hp₁.queues_eq, ← hp.queues_eq]; exact hq) readings (.resolve k)
  exact ⟨c₂, more, kept, (bind_ok hresolve).trans hrecord, hp₂, hresolved.alike halike⟩

/-- The lists of several kinds of a queue are resolved one after the other. -/
theorem Progress.resolveKinds_ok {q : Nat} {step : RefKind → Step γ Unit}
    (hstep : Resolves I prev r₀ ps₀ c₀ q step) {kinds : List RefKind} (hnodup : kinds.Nodup)
    (hp : Progress I prev r₀ ps₀ c₀ calls r pub c) (hq : q < c.processor.queues) :
    ∃ (c' : Cycle γ) (more : List Call) (kept : RefKind → List Handle),
      (kinds.forM step : Step γ Unit) c = .ok () c' ∧
      Progress I prev r₀ ps₀ c₀ (calls ++ more) (r.resolved kinds q kept)
        (kinds.reverse.flatMap (fun k => if (k != .final) = true then kept k else []) ++ pub) c' ∧
      (∀ k ∈ kinds, Parted c.world.heap (r k q) (kept k) more) ∧
      c'.times.dropped = kinds.foldl
        (fun d k => d.tally k ((r k q).length - (kept k).length)) c.times.dropped := by
  induction kinds generalizing calls r pub c with
  | nil =>
      refine ⟨c, [], fun _ => [], rfl, ?_, fun k hk => (nomatch hk), rfl⟩
      have hsame : r.resolved [] q (fun _ => []) = r := by
        funext k q'
        simp [Roster.resolved]
      rw [hsame, List.append_nil]
      exact hp
  | cons k rest ih =>
      obtain ⟨hk, hnodup⟩ := List.nodup_cons.mp hnodup
      obtain ⟨c₁, more₁, kept₁, hfirst, hp₁, hresolved⟩ := hstep k _ _ _ _ hp hq
      obtain ⟨c₂, more₂, kept₂, hrest, hp₂, hparted, hdropped⟩ := ih hnodup hp₁
        (by rw [hp₁.queues_eq, ← hp.queues_eq]; exact hq)
      have hother : ∀ k' ∈ rest, k' ≠ k := fun k' hk' e => hk (e ▸ hk')
      refine ⟨c₂, more₁ ++ more₂, fun k' => if k' = k then kept₁ else kept₂ k',
        (bind_ok hfirst).trans hrest, ?_, fun k' hk' => ?_, ?_⟩
      · have hroster : (r.set k q (if (k != .final) = true then [] else kept₁)).resolved rest q
            kept₂ = r.resolved (k :: rest) q (fun k' => if k' = k then kept₁ else kept₂ k') := by
          funext k' q'
          by_cases hkk : k' = k
          · subst hkk
            by_cases hqq : q' = q <;> simp [Roster.resolved, Roster.set, hk, hqq]
          · simp [Roster.resolved, Roster.set, hkk]
        have hpub : rest.reverse.flatMap
              (fun k' => if (k' != .final) = true then kept₂ k' else []) =
            rest.reverse.flatMap (fun k' => if (k' != .final) = true then
              (if k' = k then kept₁ else kept₂ k') else []) :=
          List.flatMap_congr fun k' hk' => by rw [if_neg (hother k' (by simpa using hk'))]
        rw [hroster, List.append_assoc, ← List.append_assoc _ _ pub, hpub] at hp₂
        simpa [List.flatMap_append] using hp₂
      · rcases List.mem_cons.mp hk' with rfl | hk'
        · simp only [if_true]
          exact hresolved.parted.congr (fun _ _ => rfl) fun x hx => List.mem_append_left _ hx
        · have hparted' := hparted k' hk'
          rw [Roster.set_of_kind_ne _ _ _ (hother k' hk')] at hparted'
          simp only [hother k' hk', if_false]
          refine hparted'.congr (fun o ho => ?_) fun x hx => List.mem_append_right _ hx
          have htarget := hresolved.verdicts.target o (hp.registered.held ho)
          rw [if_neg] at htarget
          · exact htarget.symm
          · intro hboth
            exact hother k' hk'
              (hp.registered.apart ho (hresolved.sublist.subset hboth.2)).1
      · rw [hdropped, hresolved.dropped, List.foldl_cons]
        simp only [if_true]
        refine List.foldl_ext _ _ _ fun d k' hk' => ?_
        rw [Roster.set_of_kind_ne _ _ _ (hother k' hk'), if_neg (hother k' hk')]

/-! ### Units -/

/-- The kinds that a phase publishes, in the order in which those of a queue are chained. -/
def Phase.publishes : Phase → List RefKind
  | .softWeakFinal => [.weak, .soft]
  | .keepAliveFinal => [.final]
  | .phantom => [.phantom]

/-- What a phase publishes of a queue, if it spares the members that a roster gives. -/
def Phase.segment (phase : Phase) (spared : Roster) (q : Nat) : List Handle :=
  phase.publishes.flatMap fun k => spared k q

/-- The counts of dropped references after the unit of a queue. -/
def Phase.tally (phase : Phase) (r spared : Roster) (d : PerKind Nat) (q : Nat) : PerKind Nat :=
  if phase = .keepAliveFinal then d
  else phase.kinds.foldl (fun d k => d.tally k ((r k q).length - (spared k q).length)) d

/-- The lists of the queues in `done` are done with in a phase that started on the
heap `h₀` with the roster `r₀`; the members that `spared` gives were spared. -/
structure Swept (phase : Phase) (h₀ : Heap) (r₀ : Roster) (done : List Nat) (spared : Roster)
    (calls : List Call) (r : Roster) (pub : List Handle) : Prop where
  sublist : ∀ k q, (spared k q).Sublist (r₀ k q)
  worked : ∀ k ∈ phase.kinds, ∀ q ∈ done,
    r k q = if k ∈ phase.finishes then [] else spared k q
  others : ∀ k q, q ∉ done ∨ k ∉ phase.kinds → r k q = r₀ k q
  published : pub = done.reverse.flatMap (phase.segment spared)
  parted : phase ≠ .keepAliveFinal → ∀ k ∈ phase.kinds, ∀ q ∈ done,
    Parted h₀ (r₀ k q) (spared k q) calls
  whole : phase = .keepAliveFinal → ∀ q ∈ done, spared .final q = r₀ .final q
  kept : phase = .keepAliveFinal → ∀ o t, .keepAlive o t ∈ calls →
    r₀.lists .final o ∧ h₀.target o = some t
  rested : Rested calls

/-- At the start of a phase no queue is done with. -/
theorem Swept.start (phase : Phase) (h₀ : Heap) (r₀ : Roster) :
    Swept phase h₀ r₀ [] Roster.none [] r₀ [] where
  sublist _ _ := List.nil_sublist _
  worked _ _ _ hq := nomatch hq
  others _ _ _ := rfl
  published := rfl
  parted _ _ _ _ hq := nomatch hq
  whole _ _ hq := nomatch hq
  kept _ _ _ ho := nomatch ho
  rested := .inl rfl

/-- The roster `spared` with the members of one queue replaced. -/
def Roster.sparing (spared : Roster) (kinds : List RefKind) (q : Nat)
    (kept : RefKind → List Handle) : Roster := fun k q' =>
  if k ∈ kinds ∧ q' = q then kept k else spared k q'

/-- The replaced members of the queue. -/
theorem Roster.sparing_self (spared : Roster) {kinds : List RefKind} {k : RefKind}
    (hk : k ∈ kinds) (q : Nat) (kept : RefKind → List Handle) :
    spared.sparing kinds q kept k q = kept k := by simp [sparing, hk]

/-- Other queues keep their members. -/
theorem Roster.sparing_of_ne (spared : Roster) (kinds : List RefKind) {q q' : Nat}
    (kept : RefKind → List Handle) (hne : q' ≠ q) (k : RefKind) :
    spared.sparing kinds q kept k q' = spared k q' := by simp [sparing, hne]

/-- Published kinds are kinds of the phase. -/
theorem Phase.publishes_sub (phase : Phase) : ∀ k ∈ phase.publishes, k ∈ phase.kinds := by
  cases phase <;> simp [publishes, kinds]

/-- A phase visits no kind twice. -/
theorem Phase.nodup_kinds (phase : Phase) : phase.kinds.Nodup := by
  cases phase <;> decide

/-- A phase finishes its kinds except for the final one. -/
theorem Phase.mem_finishes_iff {phase : Phase} {k : RefKind} (hphase : phase ≠ .keepAliveFinal)
    (hk : k ∈ phase.kinds) : k ∈ phase.finishes ↔ (k != .final) = true := by
  cases phase <;> cases k <;> simp_all [kinds, finishes]

/-- What a queue adds to the chain is what the lists of the phase's kinds add. -/
theorem Phase.segment_eq {phase : Phase} (hphase : phase ≠ .keepAliveFinal)
    (kept : RefKind → List Handle) :
    phase.kinds.reverse.flatMap (fun k => if (k != .final) = true then kept k else []) =
      phase.publishes.flatMap kept := by
  cases phase with
  | softWeakFinal => simp [kinds, publishes]
  | keepAliveFinal => exact absurd rfl hphase
  | phantom => simp [kinds, publishes]

/-- The unit of a queue leaves the segments of the queues before it. -/
theorem Swept.published_snoc {h₀ : Heap} {done : List Nat} {spared : Roster} {q : Nat}
    (hs : Swept phase h₀ r₀ done spared calls r pub) (hnew : q ∉ done)
    (kept : RefKind → List Handle) :
    phase.publishes.flatMap kept ++ pub =
      (done ++ [q]).reverse.flatMap (phase.segment (spared.sparing phase.kinds q kept)) := by
  rw [List.reverse_append, List.reverse_singleton, List.singleton_append, List.flatMap_cons,
    hs.published]
  congr 1
  · refine List.flatMap_congr fun k hk => ?_
    rw [spared.sparing_self (phase.publishes_sub k hk)]
  · refine List.flatMap_congr fun q' hq' => List.flatMap_congr fun k _ => ?_
    have hdone : q' ∈ done := List.mem_reverse.mp hq'
    rw [spared.sparing_of_ne _ _ fun e : q' = q => hnew (e ▸ hdone)]

/-- One more queue is swept when its final references were published as they were. -/
theorem Swept.seal {h₀ : Heap} {done : List Nat} {spared : Roster} {q : Nat}
    (hs : Swept .keepAliveFinal h₀ r₀ done spared calls r pub) (hnew : q ∉ done)
    (hkept : ∀ o t, .keepAlive o t ∈ more → r₀.lists .final o ∧ h₀.target o = some t)
    (hrested : Rested (calls ++ more)) :
    Swept .keepAliveFinal h₀ r₀ (done ++ [q]) (spared.sparing [.final] q fun _ => r .final q)
      (calls ++ more) (r.set .final q []) (r .final q ++ pub) := by
  have hold : r .final q = r₀ .final q := hs.others .final q (.inl hnew)
  have hsplit : ∀ {q'}, q' ∈ done ++ [q] → q' ∈ done ∨ q' = q := by simp
  have hne : ∀ q' ∈ done, q' ≠ q := fun q' hq' e => hnew (e ▸ hq')
  constructor
  case sublist =>
    intro k q'
    by_cases hkq : k = .final ∧ q' = q
    · obtain ⟨rfl, rfl⟩ := hkq
      rw [spared.sparing_self (by simp), hold]
    · rw [Roster.sparing, if_neg (by simpa using hkq)]
      exact hs.sublist k q'
  case worked =>
    intro k hk q' hq'
    have hk : k = .final := by simpa [Phase.kinds] using hk
    subst hk
    rw [if_pos (by simp [Phase.finishes])]
    rcases hsplit hq' with hq' | rfl
    · rw [Roster.set_of_ne _ _ fun e => hne q' hq' e.2,
        hs.worked .final (by simp [Phase.kinds]) q' hq', if_pos (by simp [Phase.finishes])]
    · rw [Roster.set_self]
  case others =>
    intro k q' hkq
    rw [← hs.others k q' (hkq.imp_left fun h hm => h (List.mem_append_left _ hm))]
    refine Roster.set_of_ne _ _ fun e => ?_
    rcases hkq with hq' | hk
    · exact hq' (by simp [e.2])
    · exact hk (by simp [Phase.kinds, e.1])
  case published =>
    rw [← show Phase.keepAliveFinal.kinds = [.final] from rfl, ← hs.published_snoc hnew]
    simp [Phase.publishes]
  case parted => exact fun hphase => absurd rfl hphase
  case whole =>
    intro _ q' hq'
    rcases hsplit hq' with hq' | rfl
    · rw [spared.sparing_of_ne _ _ (hne q' hq'), hs.whole rfl q' hq']
    · rw [spared.sparing_self (by simp), hold]
  case kept =>
    intro _ o t ho
    exact (List.mem_append.mp ho).elim (hs.kept rfl o t) (hkept o t)
  case rested => exact hrested

/-- One more queue is swept when its lists were resolved. -/
theorem Swept.resolve {h₀ : Heap} {done : List Nat} {spared : Roster} {q : Nat}
    (hphase : phase ≠ .keepAliveFinal) (hs : Swept phase h₀ r₀ done spared calls r pub)
    (hnew : q ∉ done) {kept : RefKind → List Handle}
    (hparted : ∀ k ∈ phase.kinds, Parted h₀ (r₀ k q) (kept k) more)
    (hrested : Rested (calls ++ more)) :
    Swept phase h₀ r₀ (done ++ [q]) (spared.sparing phase.kinds q kept) (calls ++ more)
      (r.resolved phase.kinds q kept) (phase.publishes.flatMap kept ++ pub) := by
  have hsplit : ∀ {q'}, q' ∈ done ++ [q] → q' ∈ done ∨ q' = q := by simp
  have hne : ∀ q' ∈ done, q' ≠ q := fun q' hq' e => hnew (e ▸ hq')
  constructor
  case sublist =>
    intro k q'
    by_cases hkq : k ∈ phase.kinds ∧ q' = q
    · obtain ⟨hk, rfl⟩ := hkq
      rw [spared.sparing_self hk]
      exact (hparted k hk).sublist
    · rw [Roster.sparing, if_neg hkq]
      exact hs.sublist k q'
  case worked =>
    intro k hk q' hq'
    rcases hsplit hq' with hq' | rfl
    · rw [Roster.resolved, if_neg fun e => hne q' hq' e.2, spared.sparing_of_ne _ _ (hne q' hq')]
      exact hs.worked k hk q' hq'
    · rw [Roster.resolved, if_pos ⟨hk, rfl⟩, spared.sparing_self hk]
      simp only [Phase.mem_finishes_iff hphase hk]
  case others =>
    intro k q' hkq
    rw [← hs.others k q' (hkq.imp_left fun h hm => h (List.mem_append_left _ hm)),
      Roster.resolved, if_neg]
    intro hboth
    rcases hkq with hq' | hk
    · exact hq' (by simp [hboth.2])
    · exact hk hboth.1
  case published => exact hs.published_snoc hnew kept
  case parted =>
    intro _ k hk q' hq'
    rcases hsplit hq' with hq' | rfl
    · rw [spared.sparing_of_ne _ _ (hne q' hq')]
      exact (hs.parted hphase k hk q' hq').congr (fun _ _ => rfl)
        fun x hx => List.mem_append_left more hx
    · rw [spared.sparing_self hk]
      exact (hparted k hk).congr (fun _ _ => rfl) fun x hx => List.mem_append_right calls hx
  case whole => exact fun hkeep => absurd hkeep hphase
  case kept => exact fun hkeep => absurd hkeep hphase
  case rested => exact hrested

/-- The unit that keeps the final references of one more queue alive. -/
theorem Progress.keepUnit_ok (hh : hooks.KeepingFinals I)
    (hp : Progress I prev r₀ ps₀ c₀ calls r pub c) {q : Nat} (hq : q < c.processor.queues)
    (hroom : c₀.times.HasRoom c₀.processor.queues) (readings : Readings)
    {done : List Nat} {spared : Roster}
    (hs : Swept .keepAliveFinal c₀.world.heap r₀ done spared calls r pub) (hnew : q ∉ done)
    (htargets : ∀ o, r₀.lists .final o →
      c₀.world.heap.target o ≠ none ∧ c₀.world.heap.nextLink o = none) :
    ∃ c' calls' r' pub' spared', Step.unit hooks readings .keepAliveFinal q c = .ok () c' ∧
      Progress I prev r₀ ps₀ c₀ calls' r' pub' c' ∧
      Swept .keepAliveFinal c₀.world.heap r₀ (done ++ [q]) spared' calls' r' pub' ∧
      (∀ k, ∀ q' ∈ done, spared' k q' = spared k q') ∧
      c'.times.dropped = c.times.dropped := by
  have hne : ∀ q' ∈ done, q' ≠ q := fun q' hq' e => hnew (e ▸ hq')
  have hlisted : ∀ o ∈ r .final q, r₀.lists .final o := fun o ho =>
    hp.settles.listed .final o ⟨q, ho⟩
  have hsame : ∀ o ∈ r .final q, c.world.heap.target o = c₀.world.heap.target o :=
    fun o ho => hp.settles.target .final o ⟨q, ho⟩
  have hpoints : ∀ o ∈ r .final q, c.world.heap.target o ≠ none := by
    intro o ho
    rw [hsame o ho]
    exact (htargets o (hlisted o ho)).1
  have hfresh : ∀ o ∈ r .final q, c.world.heap.nextLink o = none := by
    intro o ho
    rw [hp.settles.next .final o ⟨q, ho⟩]
    exact (htargets o (hlisted o ho)).2
  obtain ⟨c₁, more, hkeep, hp₁, hsealed⟩ := hp.keepFinalQueue_ok hh hq hpoints hfresh
  obtain ⟨c₂, hcomplete, htimes, hp₂⟩ := hp₁.complete_ok hh.toStoring
  obtain ⟨c₃, hrecord, halike, hp₃⟩ := hp₂.recordWorker_ok hroom
    (by rw [hp₂.queues_eq, ← hp.queues_eq]; exact hq) readings .keepAliveFinal
  rw [List.append_assoc] at hp₃
  have hkept : ∀ o t, .keepAlive o t ∈ more ++ [.complete] →
      r₀.lists .final o ∧ c₀.world.heap.target o = some t := by
    intro o t hcall
    obtain ⟨ho, ht⟩ := (hsealed.sealed.kept o t).mp (by simpa using hcall)
    exact ⟨hlisted o ho, (hsame o ho).symm.trans ht⟩
  refine ⟨c₃, _, _, _, _, (bind_ok hkeep).trans ((bind_ok hcomplete).trans hrecord), hp₃,
    hs.seal hnew hkept (.inr (by simp)), fun k q' hq' => spared.sparing_of_ne _ _ (hne q' hq') k,
    ?_⟩
  rw [halike.dropped, htimes, hsealed.times]

/-- Resolving the lists of one more queue, after which the collector finishes. -/
theorem Progress.resolveUnit_ok (hh : hooks.Storing I) (hphase : phase ≠ .keepAliveFinal)
    (hp : Progress I prev r₀ ps₀ c₀ calls r pub c) {q : Nat} {step : RefKind → Step γ Unit}
    (hstep : Resolves I prev r₀ ps₀ c₀ q step) (hq : q < c.processor.queues)
    {done : List Nat} {spared : Roster}
    (hs : Swept phase c₀.world.heap r₀ done spared calls r pub) (hnew : q ∉ done) :
    ∃ c' calls' r' pub' spared',
      (do phase.kinds.forM step; Step.onWorld hooks.complete : Step γ Unit) c = .ok () c' ∧
      Progress I prev r₀ ps₀ c₀ calls' r' pub' c' ∧
      Swept phase c₀.world.heap r₀ (done ++ [q]) spared' calls' r' pub' ∧
      (∀ k, ∀ q' ∈ done, spared' k q' = spared k q') ∧
      c'.times.dropped = phase.tally r₀ spared' c.times.dropped q := by
  have hold : ∀ k, r k q = r₀ k q := fun k => hs.others k q (.inl hnew)
  have hne : ∀ q' ∈ done, q' ≠ q := fun q' hq' e => hnew (e ▸ hq')
  obtain ⟨c₁, more, kept, hkinds, hp₁, hparted, hdropped⟩ :=
    hp.resolveKinds_ok hstep phase.nodup_kinds hq
  obtain ⟨w, hcomplete, htimes, hp₂⟩ := hp₁.complete_ok hh
  rw [Phase.segment_eq hphase, List.append_assoc] at hp₂
  have hparted₀ : ∀ k ∈ phase.kinds,
      Parted c₀.world.heap (r₀ k q) (kept k) (more ++ [.complete]) := by
    intro k hk
    rw [← hold]
    exact (hparted k hk).congr (fun o ho => (hp.settles.target k o ⟨q, ho⟩).symm)
      fun x hx => List.mem_append_left _ hx
  refine ⟨w, _, _, _, _, (bind_ok hkinds).trans hcomplete, hp₂,
    hs.resolve hphase hnew hparted₀ (.inr (by simp)),
    fun k q' hq' => spared.sparing_of_ne _ _ (hne q' hq') k, ?_⟩
  rw [htimes, hdropped, Phase.tally, if_neg hphase]
  refine List.foldl_ext _ _ _ fun d k hk => ?_
  rw [hold, spared.sparing_self hk]

/-- The unit of a phase for one more queue. -/
theorem Progress.unit_ok (hh : hooks.Serves phase I)
    (hp : Progress I prev r₀ ps₀ c₀ calls r pub c) {q : Nat} (hq : q < c.processor.queues)
    (hroom : c₀.times.HasRoom c₀.processor.queues) (readings : Readings)
    {done : List Nat} {spared : Roster}
    (hs : Swept phase c₀.world.heap r₀ done spared calls r pub) (hnew : q ∉ done)
    (htargets : phase = .keepAliveFinal → ∀ o, r₀.lists .final o →
      c₀.world.heap.target o ≠ none ∧ c₀.world.heap.nextLink o = none) :
    ∃ c' calls' r' pub' spared', Step.unit hooks readings phase q c = .ok () c' ∧
      Progress I prev r₀ ps₀ c₀ calls' r' pub' c' ∧
      Swept phase c₀.world.heap r₀ (done ++ [q]) spared' calls' r' pub' ∧
      (∀ k, ∀ q' ∈ done, spared' k q' = spared k q') ∧
      c'.times.dropped = phase.tally r₀ spared' c.times.dropped q := by
  cases phase with
  | softWeakFinal =>
      have hresolving : hooks.Resolving I := hh
      obtain ⟨c', calls', r', pub', spared', hrun, hrest⟩ := hp.resolveUnit_ok
        hresolving.toStoring (by simp) (resolves_resolveTimed hresolving hroom readings q) hq hs hnew
      refine ⟨c', calls', r', pub', spared', ?_, hrest⟩
      simp only [Phase.kinds, List.forM, bind_assoc, pure_bind] at hrun
      exact hrun
  | keepAliveFinal => exact hp.keepUnit_ok hh hq hroom readings hs hnew (htargets rfl)
  | phantom =>
      have hresolving : hooks.Resolving I := hh
      obtain ⟨c₁, calls', r', pub', spared', hrun, hp₁, hs₁, hspared, hdropped⟩ :=
        hp.resolveUnit_ok hresolving.toStoring (by simp) (resolves_resolveQueue hresolving q) hq
          hs hnew
      obtain ⟨c₂, hrecord, halike, hp₂⟩ := hp₁.recordWorker_ok hroom
        (by rw [hp₁.queues_eq, ← hp.queues_eq]; exact hq) readings (.resolve .phantom)
      refine ⟨c₂, calls', r', pub', spared', ?_, hp₂, hs₁, hspared, ?_⟩
      · have hunit := (bind_ok
          (f := fun _ => Step.recordWorker readings (.resolve .phantom) q) hrun).trans hrecord
        simp only [Phase.kinds, List.forM, bind_assoc, pure_bind] at hunit
        exact hunit
      · rw [halike.dropped, hdropped]

/-! ### All units -/

/-- What a phase has done that started on the heap `h₀` with the roster `r₀`. -/
structure PhaseDone (phase : Phase) (h₀ : Heap) (r₀ : Roster) (calls : List Call) (r : Roster)
    (pub : List Handle) : Prop where
  finished : ∀ k ∈ phase.finishes, ∀ q, r k q = []
  spared : phase = .softWeakFinal → ∀ o, r.lists .final o →
    ∃ t, h₀.target o = some t ∧ .isAlive t false ∈ calls
  kept : phase = .keepAliveFinal → ∀ o t, .keepAlive o t ∈ calls →
    r₀.lists .final o ∧ h₀.target o = some t
  weak : phase ≠ .keepAliveFinal → ∀ o ∈ pub, ¬ r₀.lists .final o
  others : ∀ k, k ∉ phase.kinds → r k = r₀ k
  rested : Rested calls

/-- Finished kinds are kinds of the phase. -/
theorem Phase.finishes_sub (phase : Phase) : ∀ k ∈ phase.finishes, k ∈ phase.kinds := by
  cases phase <;> simp [Phase.finishes, Phase.kinds]

/-- When all queues that have members are swept, the phase is done. -/
theorem Swept.done {h₀ : Heap} {n : Nat} {spared : Roster} {done : List Nat}
    (hs : Swept phase h₀ r₀ done spared calls r pub) (hdone : ∀ q, q ∈ done ↔ q < n)
    (hdisjoint : r₀.Disjoint) (hbeyond : ∀ k ∈ phase.kinds, ∀ q, n ≤ q → r₀ k q = []) :
    PhaseDone phase h₀ r₀ calls r pub where
  finished k hk q := by
    by_cases hq : q < n
    · rw [hs.worked k (phase.finishes_sub k hk) q ((hdone q).mpr hq), if_pos hk]
    · rw [hs.others k q (.inl (by rwa [hdone]))]
      exact hbeyond k (phase.finishes_sub k hk) q (by omega)
  spared hphase o := by
    subst hphase
    intro hlisted
    obtain ⟨q, ho⟩ := hlisted
    have hfinal : RefKind.final ∈ Phase.softWeakFinal.kinds := by simp [Phase.kinds]
    by_cases hq : q < n
    · have hmem := (hdone q).mpr hq
      rw [hs.worked .final hfinal q hmem, if_neg (by simp [Phase.finishes])] at ho
      exact (hs.parted (by simp) .final hfinal q hmem).dead o ho
    · rw [hs.others .final q (.inl (by rwa [hdone])), hbeyond .final hfinal q (by omega)] at ho
      cases ho
  kept := hs.kept
  weak hphase o ho hl := by
    rw [hs.published] at ho
    obtain ⟨q, -, ho⟩ := List.mem_flatMap.mp ho
    obtain ⟨k, hk, ho⟩ := List.mem_flatMap.mp ho
    have hkind := hdisjoint k .final o ⟨q, (hs.sublist k q).subset ho⟩ hl
    subst hkind
    cases phase with
    | softWeakFinal => simp [Phase.publishes] at hk
    | keepAliveFinal => exact hphase rfl
    | phantom => simp [Phase.publishes] at hk
  others k hk := funext fun q => hs.others k q (.inr hk)
  rested := hs.rested

/-- The references that a phase may publish, as a thread that visits the queues in
their order chains them. -/
def Phase.order (phase : Phase) (r : Roster) (n : Nat) : List Handle :=
  (List.range n).reverse.flatMap (phase.segment r)

/-- Fewer members are published in the same order. -/
theorem Phase.order_sublist (phase : Phase) (hsub : ∀ k q, (r k q).Sublist (r₀ k q)) (n : Nat) :
    (phase.order r n).Sublist (phase.order r₀ n) :=
  .flatMap_right _ fun q _ => .flatMap_right _ fun k _ => hsub k q

/-- A phase that visited `n` queues in their order has published and left
references in the order in which it found them. -/
structure PhaseOrdered (phase : Phase) (r₀ : Roster) (n : Nat) (r : Roster) (pub : List Handle) :
    Prop where
  published : pub.Sublist (phase.order r₀ n)
  left : ∀ k q, (r k q).Sublist (r₀ k q)

/-- Queues that were visited in their order are left, and published, in order. -/
theorem Swept.ordered {h₀ : Heap} {n : Nat} {spared : Roster}
    (hs : Swept phase h₀ r₀ (List.range n) spared calls r pub) :
    PhaseOrdered phase r₀ n r pub where
  published := by
    rw [hs.published]
    exact phase.order_sublist hs.sublist n
  left k q := by
    by_cases hkq : k ∈ phase.kinds ∧ q ∈ List.range n
    · rw [hs.worked k hkq.1 q hkq.2]
      split
      · exact List.nil_sublist _
      · exact hs.sublist k q
    · rw [hs.others k q (by rw [and_comm, not_and_or] at hkq; exact hkq)]

namespace Pass

variable {t : Threaded (Cycle γ)}

/-- What a phase relies on: its references are registered and can be looked at, there is
room for the times of its workers, and final references have targets and no next link by the
time they are kept alive. -/
structure Begins (I : List Call → World γ → Prop) (prev : List Call) (phase : Phase)
    (r₀ : Roster) (ps₀ : List Handle) (c₀ : Cycle γ) : Prop where
  registered : Registered c₀.processor c₀.world.heap r₀ ps₀
  points : Pointing c₀.processor.config.concurrentDiscovery c₀.world.heap r₀
  inv : I prev c₀.world
  room : c₀.times.HasRoom c₀.processor.queues
  targets : phase = .keepAliveFinal → ∀ o, r₀.lists .final o →
    c₀.world.heap.target o ≠ none ∧ c₀.world.heap.nextLink o = none

/-- The pool of a thread can start the threads of any task, if it is used. -/
def CanStart (pooled : Bool) (t : Threaded (Cycle γ)) : Prop :=
  pooled = true → ∀ p ∈ t.pool, p.CanStart

/-- The body that every worker runs for a queue. -/
def phaseUnit (hooks : Hooks γ) (readings : Readings) (phase : Phase) (queue : Nat) :
    Pass γ Unit := do
  let worker ← Threaded.currentWorker
  Threaded.lift do
    Step.onWorld (Act.updateCollector (hooks.enterUnit queue worker))
    Step.unit hooks readings phase queue

/-- The units of the queues in `done` are over. -/
def UnitsDone (I : List Call → World γ → Prop) (prev : List Call) (phase : Phase) (r₀ : Roster)
    (ps₀ : List Handle) (c₀ : Cycle γ) (done : List Nat) (c : Cycle γ) : Prop :=
  ∃ calls r pub spared, Progress I prev r₀ ps₀ c₀ calls r pub c ∧
    Swept phase c₀.world.heap r₀ done spared calls r pub

/-- The unit of one more queue returns, in a state where this queue is done as well. -/
theorem phaseUnit_ok (hh : hooks.Serves phase I) (hb : Begins I prev phase r₀ ps₀ c₀)
    (readings : Readings) {q : Nat} (hq : q < c₀.processor.queues) {done : List Nat}
    (hnew : q ∉ done) (hpre : UnitsDone I prev phase r₀ ps₀ c₀ done t.state) :
    ∃ t', phaseUnit hooks readings phase q t = .ok () t' ∧ t'.pool = t.pool ∧
      UnitsDone I prev phase r₀ ps₀ c₀ (done ++ [q]) t'.state := by
  obtain ⟨calls, r, pub, spared, hp, hs⟩ := hpre
  have hp₁ := hp.collector (hh.storing.enterUnit q t.worker hp.inv)
  obtain ⟨c', calls', r', pub', spared', hunit, hp', hs', -, -⟩ :=
    hp₁.unit_ok hh (q := q) (by rw [hp₁.queues_eq]; exact hq) hb.room readings hs hnew hb.targets
  refine ⟨{ t with state := c' }, ?_, rfl, calls', r', pub', spared', hp', hs'⟩
  have hworker : (Threaded.currentWorker : Pass γ (Option Nat)) t = .ok t.worker t := rfl
  have henter := Step.updateCollector_ok (hooks.enterUnit q t.worker) t.state
  exact (bind_ok hworker).trans (Threaded.lift_ok ((bind_ok henter).trans hunit))

/-- Workers of the pool run the units of the active queues, in any order. -/
theorem runTask_ok (hh : hooks.Serves phase I) (hb : Begins I prev phase r₀ ps₀ c₀)
    (readings : Readings) {n : Nat} (hn : n ≤ c₀.processor.queues) (order : UnitOrder n)
    (hstart : ∀ p ∈ t.pool, p.CanStart) (hpre : UnitsDone I prev phase r₀ ps₀ c₀ [] t.state) :
    ∃ units t', Threaded.runTask n (phaseUnit hooks readings phase) order t = .ok units t' ∧
      (∀ p ∈ t'.pool, p.CanStart) ∧
      UnitsDone I prev phase r₀ ps₀ c₀ order.units t'.state := by
  refine Threaded.runTask_ok (UnitsDone I prev phase r₀ ps₀ c₀) order hstart ?_ hpre
  intro done q rest u horder hdone
  have hq : q < n := order.mem_units_iff.mp (by rw [horder]; simp)
  have hnew : q ∉ done := by
    have hnodup := order.nodup_units
    rw [horder] at hnodup
    exact fun hmem => (List.nodup_append.mp hnodup).2.2 q hmem q List.mem_cons_self rfl
  obtain ⟨u', hunit, hpool, hpost⟩ := phaseUnit_ok hh hb readings (by omega) hnew hdone
  exact ⟨(), u', hunit, hpool, hpost⟩

/-- The calling thread visits the queues in their order. -/
theorem visitQueues_ok (hh : hooks.Serves phase I) (hb : Begins I prev phase r₀ ps₀ c₀)
    (readings : Readings) (hpre : UnitsDone I prev phase r₀ ps₀ c₀ [] t.state) :
    ∃ t', (List.range c₀.processor.queues).forM (phaseUnit hooks readings phase) t = .ok () t' ∧
      t'.pool = t.pool ∧
      UnitsDone I prev phase r₀ ps₀ c₀ (List.range c₀.processor.queues) t'.state := by
  refine forM_range_ok (fun q (u : Threaded (Cycle γ)) => u.pool = t.pool ∧
    UnitsDone I prev phase r₀ ps₀ c₀ (List.range q) u.state) ?_ ⟨rfl, hpre⟩
  intro q u hq hdone
  obtain ⟨u', hunit, hpool, hpost⟩ := phaseUnit_ok hh hb readings hq (by simp) hdone.2
  rw [← List.range_succ] at hpost
  exact ⟨u', hunit, hpool.trans hdone.1, hpost⟩

/-- All units of a phase, on the pool or in the calling thread. -/
theorem dispatch_ok (hh : hooks.Serves phase I) (hb : Begins I prev phase r₀ ps₀ t.state)
    (readings : Readings) (pooled : Bool) (hstart : CanStart pooled t)
    (hdegree : t.state.processor.degree ≤ t.state.processor.queues)
    (hactive : (pooled && t.state.processor.isMulti) = true →
      ∀ k ∈ phase.kinds, ∀ q, t.state.processor.degree ≤ q → r₀ k q = []) :
    ∃ t' calls r pub, dispatch hooks readings pooled phase t = .ok () t' ∧ CanStart pooled t' ∧
      Progress I prev r₀ ps₀ t.state calls r pub t'.state ∧
      PhaseDone phase t.state.world.heap r₀ calls r pub ∧
      ((pooled && t.state.processor.isMulti) = false →
        PhaseOrdered phase r₀ t.state.processor.queues r pub) := by
  obtain ⟨multi, hmulti⟩ : ∃ multi, multi = (pooled && t.state.processor.isMulti) := ⟨_, rfl⟩
  have hbegin : Progress I prev r₀ ps₀ t.state [] r₀ [] t.state :=
    .refl hb.registered hb.points hb.inv
  obtain ⟨t₁, hannounce, hpool₁, hp₁⟩ : ∃ t₁, (Threaded.lift do
        Step.log (.phaseStart phase.name t.state.processor.degree multi (phase == .keepAliveFinal))
        Step.onWorld (Act.updateCollector (hooks.prepare t.state.processor.degree multi
          (phase == .keepAliveFinal))) : Pass γ Unit) t = .ok () t₁ ∧ t₁.pool = t.pool ∧
      Progress I prev r₀ ps₀ t.state [] r₀ [] t₁.state := by
    obtain ⟨c₁, hlog, halike⟩ := Step.log_ok
      (.phaseStart phase.name t.state.processor.degree multi (phase == .keepAliveFinal)) t.state
    have hp := hbegin.alike halike
    exact ⟨_, Threaded.lift_ok ((bind_ok hlog).trans (Step.updateCollector_ok _ _)), rfl,
      hp.collector (hh.storing.prepare _ _ _ hp.inv)⟩
  have hdone₁ : UnitsDone I prev phase r₀ ps₀ t.state [] t₁.state :=
    ⟨_, _, _, _, hp₁, .start _ _ _⟩
  have hprocessor : (Threaded.lift Step.processor : Pass γ Processor) t =
      .ok t.state.processor t := rfl
  cases hm : multi with
  | true =>
      rw [hm] at hannounce hmulti
      have hpooled : pooled = true := (Bool.and_eq_true_iff.mp hmulti.symm).1
      obtain ⟨units, t', hrun, hpool, calls, r, pub, spared, hp', hs⟩ := runTask_ok hh hb readings
        hdegree (readings.order phase t.state.processor.degree)
        (by rw [hpool₁]; exact hstart hpooled) hdone₁
      refine ⟨t', calls, r, pub, ?_, fun _ => hpool, hp',
        hs.done (fun _ => UnitOrder.mem_units_iff _) hb.registered.disjoint (hactive hmulti.symm),
        fun hserial => ?_⟩
      case refine_2 => rw [← hmulti] at hserial; cases hserial
      unfold dispatch
      refine (bind_ok hprocessor).trans ?_
      simp only [← hmulti]
      exact (bind_ok hannounce).trans (map_ok (fun _ => ()) hrun)
  | false =>
      rw [hm] at hannounce hmulti
      obtain ⟨t', hrun, hpool, calls, r, pub, spared, hp', hs⟩ :=
        visitQueues_ok hh hb readings hdone₁
      refine ⟨t', calls, r, pub, ?_, fun hpooled => by rw [hpool, hpool₁]; exact hstart hpooled,
        hp', hs.done (fun _ => List.mem_range) hb.registered.disjoint
          fun k _ q hq => hb.registered.beyond hq,
        fun _ => hs.ordered⟩
      unfold dispatch
      refine (bind_ok hprocessor).trans ?_
      simp only [← hmulti]
      exact (bind_ok hannounce).trans hrun

end Pass

/-! ### Before and after the units -/

/-- Without a need for balance the queues beyond the active ones are empty. -/
theorem Registered.beyond_of_not_needsBalance {p : Processor} {h : Heap} {k : RefKind}
    {q : Nat} (hr : Registered p h r ps₀) (hno : p.needsBalance k = false)
    (hq : p.degree ≤ q) : r k q = [] := by
  by_cases hqn : q < p.queues
  · obtain ⟨l, hl, hlists⟩ := (hr.spread k).list_ok (by rw [hr.size k]; exact hqn)
    have hmem : l ∈ (p.listsOf k).toList.drop p.degree := by
      refine List.mem_of_getElem? (i := q - p.degree) ?_
      rw [List.getElem?_drop, Nat.add_sub_cancel' hq, Array.getElem?_toList, hl]
    have hempty : l.isEmpty = true := by
      simp only [Processor.needsBalance, Bool.or_eq_false_iff, List.any_eq_false] at hno
      simpa using hno.2 l hmem
    exact hlists.isEmpty_iff.mp hempty
  · exact hr.beyond (by omega)

/-- Where several workers share the queues, balancing the lists of a kind if needed settles
nothing, and leaves no reference of the kind beyond the active queues. -/
theorem Progress.balanceIfNeeded_ok (hh : hooks.Storing I)
    (hp : Progress I prev r₀ ps₀ c₀ [] r [] c) (hmulti : c₀.processor.isMulti = true)
    (hpos : 0 < c₀.processor.degree) (hdegree : c₀.processor.degree ≤ c₀.processor.queues)
    (k : RefKind) :
    ∃ c' r', (Step.withHeap fun p h sink => p.balanceIfNeeded h sink k : Step γ Unit) c =
        .ok () c' ∧
      Progress I prev r₀ ps₀ c₀ [] r' [] c' ∧ (∀ k' o, r'.lists k' o ↔ r.lists k' o) ∧
      (∀ k', k' ≠ k → r' k' = r k') ∧ ∀ q, c₀.processor.degree ≤ q → r' k q = [] := by
  have hdeg := hp.degree
  have hbalances := Processor.balanceIfNeeded_eq (hp.isMulti_eq.trans hmulti) c.world.heap c.sink k
  by_cases hneeds : c.processor.needsBalance k = true
  · obtain ⟨p', h', sink', r', hbalance, hr', hsetup, hdegree', hturn, hother, hlists, hempty,
        hrelinks⟩ := Processor.balanceKind_ok (k := k) hp.registered (by omega)
      (by rw [hdeg, hp.queues_eq]; exact hdegree) c.sink
    rw [if_pos hneeds, hbalance] at hbalances
    have hsame : ∀ k' o, r'.lists k' o ↔ r.lists k' o := by
      intro k' o
      by_cases hkk : k' = k
      · rw [hkk]
        exact hlists o
      · rw [Roster.lists, hother k' hkk]
        exact Iff.rfl
    have hp' : Progress I prev r₀ ps₀ c₀ ([] ++ []) r' ([] ++ []) { c with
        processor := p', sink := sink', world := { c.world with heap := h' } } :=
      hp.extend _ hr' (.ofRelinked (hrelinks.mono fun o ho => ⟨k, ho⟩) hsame)
      (by simpa using hh.relink hp.inv hrelinks.objects) hsetup hdegree' (Nat.le_of_eq hturn) rfl
      rfl
    exact ⟨_, r', Step.withHeap_ok hbalances, hp', hsame, hother, fun q hq => hempty q (by omega)⟩
  · rw [if_neg hneeds] at hbalances
    refine ⟨_, r, Step.withHeap_ok hbalances, hp, fun _ _ => Iff.rfl, fun _ _ => rfl,
      fun q hq => ?_⟩
    exact hp.registered.beyond_of_not_needsBalance (by simpa using hneeds) (by omega)

/-- Balancing before a phase settles nothing; if several workers may share the
queues, it leaves no reference of the phase beyond the active ones, and otherwise it
moves none. -/
theorem Progress.balanceFor_ok (hh : hooks.Storing I) (hp : Progress I prev r₀ ps₀ c₀ [] r₀ [] c)
    (readings : Readings) (phase : Phase) (hpos : 0 < c₀.processor.degree)
    (hdegree : c₀.processor.degree ≤ c₀.processor.queues) :
    ∃ c' r, Step.balanceFor readings phase c = .ok () c' ∧
      Progress I prev r₀ ps₀ c₀ [] r [] c' ∧
      (∀ k o, r.lists k o ↔ r₀.lists k o) ∧ (∀ k, k ∉ phase.kinds → r k = r₀ k) ∧
      (c₀.processor.isMulti = true →
        ∀ k ∈ phase.kinds, ∀ q, c₀.processor.degree ≤ q → r k q = []) ∧
      (c₀.processor.isMulti = false → r = r₀) := by
  unfold Step.balanceFor
  by_cases hmulti : c.processor.isMulti = true
  · have hstart : c₀.processor.isMulti = true := hp.isMulti_eq.symm.trans hmulti
    obtain ⟨c₁, hloop, r, hp₁, hsame, hothers, hbeyond⟩ := forM_ok
      (f := fun k => (Step.withHeap fun p h sink => p.balanceIfNeeded h sink k : Step γ Unit))
      (fun done c => ∃ r, Progress I prev r₀ ps₀ c₀ [] r [] c ∧
        (∀ k o, r.lists k o ↔ r₀.lists k o) ∧ (∀ k, k ∉ phase.kinds → r k = r₀ k) ∧
        ∀ k ∈ done, ∀ q, c₀.processor.degree ≤ q → r k q = [])
      (l := phase.kinds)
      (by
        intro done k rest c hitems hprogress
        obtain ⟨r, hp, hsame, hothers, hbeyond⟩ := hprogress
        have hk : k ∈ phase.kinds := by rw [hitems]; simp
        obtain ⟨c', r', hrun, hp', hsame', hother', hempty⟩ :=
          hp.balanceIfNeeded_ok hh hstart hpos hdegree k
        refine ⟨c', hrun, r', hp', fun k' o => (hsame' k' o).trans (hsame k' o),
          fun k' hk' => ?_, fun k' hk' q hq => ?_⟩
        · rw [hother' k' fun e => hk' (e ▸ hk)]
          exact hothers k' hk'
        · by_cases hkk : k' = k
          · rw [hkk]
            exact hempty q hq
          · rw [hother' k' hkk]
            exact hbeyond k' (by simpa [hkk] using hk') q hq)
      ⟨r₀, hp, fun _ _ => Iff.rfl, fun _ _ => rfl, by simp⟩
    obtain ⟨c₂, htimes, halike⟩ := Step.updateTimes_ok
      (f := fun t => t.recordBalancing phase (readings.took (.balancing phase)))
      (fun _ => ⟨rfl, rfl, rfl⟩) c₁
    refine ⟨c₂, r, (bind_ok (Step.processor_ok c)).trans ?_, hp₁.alike halike, hsame, hothers,
      fun _ => hbeyond, fun hserial => ?_⟩
    · rw [if_pos hmulti]
      exact (bind_ok hloop).trans htimes
    · rw [← hp.isMulti_eq, hmulti] at hserial
      cases hserial
  · refine ⟨c, r₀, (bind_ok (Step.processor_ok c)).trans (by rw [if_neg hmulti]; rfl), hp,
      fun _ _ => Iff.rfl, fun _ _ => rfl, fun hm => ?_, fun _ => rfl⟩
    rw [← hp.isMulti_eq] at hm
    exact absurd hm hmulti

/-- The lengths of the lists can be logged. -/
theorem Progress.logAll_ok (hp : Progress I prev r₀ ps₀ c₀ calls r pub c)
    (labels : List (String × RefKind)) :
    ∃ c', (labels.forM fun (label, k) => Step.logLengths label k : Step γ Unit) c = .ok () c' ∧
      Progress I prev r₀ ps₀ c₀ calls r pub c' :=
  forM_ok (fun _ c => Progress I prev r₀ ps₀ c₀ calls r pub c)
    (fun _ x _ c _ hp => by
      obtain ⟨c', hlog, halike⟩ := Step.logLengths_ok x.1 (hp.registered.total_ok x.2)
      exact ⟨c', hlog, hp.alike halike⟩)
    hp

/-- None of the references that a phase finishes are left. -/
theorem Progress.verify_ok (hp : Progress I prev r₀ ps₀ c₀ calls r pub c) {kinds : List RefKind}
    (hnone : ∀ k ∈ kinds, ∀ q, r k q = []) :
    (kinds.forM fun k => do
      Step.ofExcept ((← Step.processor).verifyNone k) : Step γ Unit) c = .ok () c := by
  obtain ⟨c', hloop, rfl⟩ := forM_ok (f := fun k => (do
      Step.ofExcept ((← Step.processor).verifyNone k) : Step γ Unit))
    (fun _ c' => c' = c) (l := kinds)
    (fun done k rest c' hitems hc => by
      subst hc
      have hverify := hp.registered.verifyNone_ok (hnone k (by rw [hitems]; simp))
      exact ⟨c', (bind_ok (Step.processor_ok c')).trans (Step.ofExcept_ok hverify), rfl⟩)
    rfl
  exact hloop

/-- Progress made with another degree is progress once the degree is what it was. -/
theorem Progress.restored {p : Processor}
    (hp : Progress I prev r₀ ps₀ { c₀ with processor := p } calls r pub c)
    (hstart : Registered c₀.processor c₀.world.heap r₀ ps₀)
    (hsetup : p.setup = c₀.processor.setup) :
    Progress I prev r₀ ps₀ c₀ calls r pub { c with
      processor := { c.processor with degree := c₀.processor.degree, turn := 0 } } where
  start := hstart
  registered := hp.registered.of_lists rfl rfl
  points := by
    have hpoints := hp.points
    rw [Processor.config_eq_of_setup hsetup] at hpoints
    exact hpoints
  settles := hp.settles
  inv := hp.inv
  setup := hp.setup.trans hsetup
  degree := rfl
  turn := Nat.zero_le _
  discovered := hp.discovered
  maxWorkers := hp.maxWorkers

/-- A phase that started on other lists with the same members has done the same. -/
theorem PhaseDone.rebase {h h₀ : Heap} {r₁ : Roster} (hd : PhaseDone phase h r₁ calls r pub)
    (hsame : ∀ k o, r₁.lists k o ↔ r₀.lists k o)
    (htarget : ∀ k o, r₁.lists k o → h.target o = h₀.target o)
    (hothers : ∀ k, k ∉ phase.kinds → r₁ k = r₀ k)
    (hleft : ∀ o, r.lists .final o → r₁.lists .final o) :
    PhaseDone phase h₀ r₀ calls r pub where
  finished := hd.finished
  spared hphase o ho := by
    obtain ⟨x, hx, hcall⟩ := hd.spared hphase o ho
    exact ⟨x, (htarget .final o (hleft o ho)).symm.trans hx, hcall⟩
  kept hphase o x hcall := by
    obtain ⟨hlisted, hx⟩ := hd.kept hphase o x hcall
    exact ⟨(hsame .final o).mp hlisted, (htarget .final o hlisted).symm.trans hx⟩
  weak hphase o ho hl := hd.weak hphase o ho ((hsame .final o).mpr hl)
  others k hk := (hd.others k hk).trans (hothers k hk)
  rested := hd.rested

namespace Pass

variable {t : Threaded (Cycle γ)}

/-- Only the world and the lists matter to what a phase relies on. -/
theorem Begins.of_lists {p : Processor} (hb : Begins I prev phase r₀ ps₀ c₀)
    (hlists : p.lists = c₀.processor.lists) (hsetup : p.setup = c₀.processor.setup) :
    Begins I prev phase r₀ ps₀ { c₀ with processor := p } where
  registered := hb.registered.of_lists hlists (Processor.config_eq_of_setup hsetup)
  points := by
    have hpoints := hb.points
    rw [← Processor.config_eq_of_setup hsetup] at hpoints
    exact hpoints
  inv := hb.inv
  room := by
    rw [Processor.queues_eq_of_setup hsetup]
    exact hb.room
  targets := hb.targets

/-- With a narrowed degree a phase does its work. -/
theorem runNarrowed_ok (hh : hooks.Serves phase I) (hb : Begins I prev phase r₀ ps₀ t.state)
    (readings : Readings) (pooled : Bool) (hstart : CanStart pooled t)
    (hpos : 1 ≤ t.state.processor.degree)
    (hdegree : t.state.processor.degree ≤ t.state.processor.queues) {size : Nat}
    (hsize : size + 1 < 2 ^ 64) :
    ∃ p t' calls r pub, runNarrowed hooks readings pooled phase size t = .ok () t' ∧
      CanStart pooled t' ∧ p.setup = t.state.processor.setup ∧
      Progress I prev r₀ ps₀ { t.state with processor := p } calls r pub t'.state ∧
      PhaseDone phase t.state.world.heap r₀ calls r pub ∧
      (pooled = false → PhaseOrdered phase r₀ t.state.processor.queues r pub) := by
  obtain ⟨n, hnarrow, hsaved, hsetup, hlists, hnpos, hnle, hturn, hserial⟩ := Processor.narrow_ok
    hpos hdegree hsize phase (if pooled = true then t.pool.map Pool.activeWorkers else none)
  have hqueues := Processor.queues_eq_of_setup hsetup
  have hb₁ := hb.of_lists hlists hsetup
  obtain ⟨c₂, r₂, hbalance, hp₂, hsame, hothers, hactive, hunmoved⟩ :=
    (Progress.refl hb₁.registered hb₁.points hb₁.inv).balanceFor_ok hh.storing readings phase
      hnpos (by rw [hqueues]; exact hnle)
  obtain ⟨c₃, hbefore, hp₃⟩ := hp₂.logAll_ok phase.labels.1
  have htarget₃ : ∀ k o, r₂.lists k o →
      c₃.world.heap.target o = t.state.world.heap.target o := hp₃.settles.target
  have hb₃ : Begins I prev phase r₂ ps₀ c₃ :=
    ⟨hp₃.registered, by rw [hp₃.config_eq]; exact hp₃.points, by simpa using hp₃.inv,
      hp₃.hasRoom hb₁.room, fun hphase o ho => by
        rw [htarget₃ .final o ho, hp₃.settles.next .final o ho]
        exact hb.targets hphase o ((hsame .final o).mp ho)⟩
  obtain ⟨t₄, calls, r, pub, hdispatch, hstart₄, hp₄, hdone, hordered⟩ :=
    dispatch_ok (t := { t with state := c₃ }) hh hb₃ readings pooled hstart
      (hp₃.degree_le_queues (by rw [hqueues]; exact hnle))
      (fun hmulti k hk q hq => by
        simp only [hp₃.isMulti_eq, Bool.and_eq_true] at hmulti
        exact hactive hmulti.2 k hk q (by rw [← hp₃.degree]; exact hq))
  have hp₄' := hp₃.trans (by simpa using hp₄)
  rw [List.nil_append, List.append_nil] at hp₄'
  have hverify := hp₄'.verify_ok hdone.finished
  obtain ⟨c₅, hafter, hp₅⟩ := hp₄'.logAll_ok phase.labels.2
  refine ⟨n.processor, { t₄ with state := c₅ }, calls, r, pub, ?_, hstart₄, hsetup, hp₅,
    hdone.rebase hsame htarget₃ hothers fun o ho => hp₄.settles.listed .final o ho, ?_⟩
  · have hnarrowed : (Step.updateProcessor fun p => Narrowed.processor <$> p.narrow phase size
        (if pooled = true then t.pool.map Pool.activeWorkers else none) : Step γ Unit) t.state =
        .ok () { t.state with processor := n.processor } :=
      Step.updateProcessor_ok (by rw [hnarrow]; rfl)
    refine (bind_ok (get_ok t)).trans ?_
    refine (bind_ok (Threaded.lift_ok ((bind_ok hnarrowed).trans
      ((bind_ok hbalance).trans hbefore)))).trans ?_
    exact (bind_ok hdispatch).trans (Threaded.lift_ok ((bind_ok hverify).trans hafter))
  · intro hpooled
    have hmulti : n.processor.isMulti = false := hserial (by simp [hpooled])
    have hordered' := hordered (by simp [hpooled])
    rw [hunmoved hmulti, show c₃.processor.queues = t.state.processor.queues from
      hp₃.queues_eq.trans hqueues] at hordered'
    exact hordered'

/-- A phase with references returns, whatever degree it is narrowed to. -/
theorem runPhase_ok (hh : hooks.Serves phase I) (hb : Begins I prev phase r₀ ps₀ t.state)
    (readings : Readings) (pooled : Bool) (hstart : CanStart pooled t)
    (hpos : 1 ≤ t.state.processor.degree)
    (hdegree : t.state.processor.degree ≤ t.state.processor.queues) {size : Nat}
    (hsize : size + 1 < 2 ^ 64) :
    ∃ t' calls r pub, runPhase hooks readings pooled phase size t = .ok () t' ∧
      CanStart pooled t' ∧ Progress I prev r₀ ps₀ t.state calls r pub t'.state ∧
      PhaseDone phase t.state.world.heap r₀ calls r pub ∧
      (pooled = false → PhaseOrdered phase r₀ t.state.processor.queues r pub) := by
  obtain ⟨p, t₁, calls, r, pub, hrun, hstart₁, hsetup, hp₁, hdone, hordered⟩ :=
    runNarrowed_ok hh hb readings pooled hstart hpos hdegree hsize
  have hqueues : t₁.state.processor.queues = t.state.processor.queues :=
    hp₁.queues_eq.trans (Processor.queues_eq_of_setup hsetup)
  have hrestore := Processor.setDegree_ok (p := t₁.state.processor)
    (n := t.state.processor.degree) (by rw [hqueues]; exact hdegree)
  have hsaved : (Threaded.lift (Processor.degree <$> Step.processor) : Pass γ Nat) t =
      .ok t.state.processor.degree t := rfl
  refine ⟨_, calls, r, pub, (bind_ok hsaved).trans
    (tryFinally_ok hrun (Threaded.lift_ok (Step.updateProcessor_ok hrestore))), hstart₁,
    hp₁.restored hb.registered hsetup, hdone, hordered⟩

/-- The counts of some kinds have a sum, and nothing is listed if it is zero. -/
theorem sumKinds_ok {c : Cycle γ} (hr : Registered c.processor c.world.heap r₀ ps₀)
    {kinds : List RefKind} (hfew : kinds.length ≤ 4)
    (hcounts : ∀ k ∈ kinds,
      c.times.discovered.get k = (gather (r₀ k) c.processor.queues).length) :
    ∃ size, sumCounts (kinds.map c.times.discovered.get) = .ok size ∧ size + 1 < 2 ^ 64 ∧
      (size = 0 → ∀ k ∈ kinds, ∀ q, r₀ k q = []) := by
  have hlt : ∀ n ∈ kinds.map c.times.discovered.get, n ≤ 2 ^ 32 := by
    intro n hn
    obtain ⟨k, hk, rfl⟩ := List.mem_map.mp hn
    rw [hcounts k hk]
    exact Nat.le_of_lt (hr.length_gather_lt k c.processor.queues)
  have hsum : (kinds.map c.times.discovered.get).sum ≤ kinds.length * 2 ^ 32 := by
    simpa using List.sum_le_card_nsmul _ _ hlt
  refine ⟨_, sumCounts_ok (by omega), by omega, fun hzero k hk => ?_⟩
  have hnone := List.sum_eq_zero_iff_forall_eq_nat.mp hzero _ (List.mem_map_of_mem hk)
  rw [hcounts k hk] at hnone
  exact hr.eq_nil_of_total hnone

/-- How many references a phase will find: as many as are listed under its
kinds, counted now or when the cycle began. -/
theorem phaseSize_ok {c : Cycle γ} (hr : Registered c.processor c.world.heap r₀ ps₀)
    (hcounts : phase ≠ .keepAliveFinal → ∀ k ∈ phase.kinds,
      c.times.discovered.get k = (gather (r₀ k) c.processor.queues).length) :
    ∃ size, (Step.phaseSize phase : Step γ Nat) c = .ok size c ∧ size + 1 < 2 ^ 64 ∧
      (size = 0 → ∀ k ∈ phase.kinds, ∀ q, r₀ k q = []) := by
  cases phase with
  | keepAliveFinal =>
      have hlt := hr.length_gather_lt .final c.processor.queues
      refine ⟨_, (bind_ok (get_ok c)).trans (Step.ofExcept_ok (hr.total_ok .final)), by omega,
        fun hzero k hk => ?_⟩
      have hk : k = .final := by simpa [Phase.kinds] using hk
      subst hk
      exact hr.eq_nil_of_total hzero
  | softWeakFinal =>
      obtain ⟨size, hsum, hrest⟩ := sumKinds_ok hr (by simp [Phase.kinds]) (hcounts (by simp))
      exact ⟨size, (bind_ok (get_ok c)).trans (Step.ofExcept_ok hsum), hrest⟩
  | phantom =>
      obtain ⟨size, hsum, hrest⟩ := sumKinds_ok hr (by simp [Phase.kinds]) (hcounts (by simp))
      exact ⟨size, (bind_ok (get_ok c)).trans (Step.ofExcept_ok hsum), hrest⟩

/-- A phase without references only notes that it was skipped. -/
theorem skipPhase_ok (hb : Begins I prev phase r₀ ps₀ t.state) {pooled : Bool}
    (hstart : CanStart pooled t) (hnone : ∀ k ∈ phase.kinds, ∀ q, r₀ k q = []) :
    ∃ t' calls r pub, (Threaded.lift do
          Step.updateTimes fun times => times.recordSkipped phase
          Step.log (.phaseSkipped phase.name "no references") : Pass γ Unit) t = .ok () t' ∧
      CanStart pooled t' ∧ Progress I prev r₀ ps₀ t.state calls r pub t'.state ∧
      PhaseDone phase t.state.world.heap r₀ calls r pub ∧
      (pooled = false → PhaseOrdered phase r₀ t.state.processor.queues r pub) := by
  obtain ⟨c₁, htimes, halike₁⟩ := Step.updateTimes_ok
    (f := fun times => times.recordSkipped phase) (fun _ => ⟨rfl, rfl, rfl⟩) t.state
  obtain ⟨c₂, hlog, halike₂⟩ := Step.log_ok (.phaseSkipped phase.name "no references") c₁
  refine ⟨_, [], r₀, [], Threaded.lift_ok ((bind_ok htimes).trans hlog), hstart,
    (Progress.refl hb.registered hb.points hb.inv).alike (halike₁.trans halike₂), ?_,
    fun _ => ⟨List.nil_sublist _, fun _ _ => .refl _⟩⟩
  constructor
  case finished => exact fun k hk => hnone k (phase.finishes_sub k hk)
  case spared =>
    intro hphase o hlisted
    obtain ⟨q, ho⟩ := hlisted
    rw [hnone .final (by rw [hphase]; simp [Phase.kinds]) q] at ho
    cases ho
  case kept => exact fun _ o x hcall => by cases hcall
  case weak => exact fun _ o ho => by cases ho
  case others => exact fun _ _ => rfl
  case rested => exact .inl rfl

/-- At the end of a phase only records are written. -/
theorem endPhase_ok (readings : Readings) (phase : Phase) (c : Cycle γ) :
    ∃ c', (endPhase readings phase : Step γ Unit) c = .ok () c' ∧ c.Alike c' := by
  obtain ⟨c₁, htimes, halike₁⟩ := Step.updateTimes_ok
    (f := fun times => times.recordPhase phase (readings.took (.phase phase)))
    (fun _ => ⟨rfl, rfl, rfl⟩) c
  obtain ⟨c₂, hlog, halike₂⟩ := Step.log_ok
    (.phaseEnd phase.name (millisOfNanos (readings.took (.phase phase)))) c₁
  exact ⟨c₂, (bind_ok htimes).trans hlog, halike₁.trans halike₂⟩

/-- A phase returns, and finishes its references. -/
theorem phase_ok (hh : hooks.Serves phase I) (hb : Begins I prev phase r₀ ps₀ t.state)
    (readings : Readings) (pooled : Bool) (hstart : CanStart pooled t)
    (hpos : 1 ≤ t.state.processor.degree)
    (hdegree : t.state.processor.degree ≤ t.state.processor.queues)
    (hcounts : phase ≠ .keepAliveFinal → ∀ k ∈ phase.kinds,
      t.state.times.discovered.get k = (gather (r₀ k) t.state.processor.queues).length) :
    ∃ t' calls r pub, Pass.phase hooks readings pooled phase t = .ok () t' ∧
      CanStart pooled t' ∧ Progress I prev r₀ ps₀ t.state calls r pub t'.state ∧
      PhaseDone phase t.state.world.heap r₀ calls r pub ∧
      (pooled = false → PhaseOrdered phase r₀ t.state.processor.queues r pub) := by
  obtain ⟨size, hphaseSize, hsize, hzero⟩ := phaseSize_ok hb.registered hcounts
  obtain ⟨t₁, calls, r, pub, hbody, hstart₁, hp, hdone, hordered⟩ : ∃ t₁ calls r pub,
      (if size = 0 then Threaded.lift do
          Step.updateTimes fun times => times.recordSkipped phase
          Step.log (.phaseSkipped phase.name "no references")
        else runPhase hooks readings pooled phase size : Pass γ Unit) t = .ok () t₁ ∧
      CanStart pooled t₁ ∧ Progress I prev r₀ ps₀ t.state calls r pub t₁.state ∧
      PhaseDone phase t.state.world.heap r₀ calls r pub ∧
      (pooled = false → PhaseOrdered phase r₀ t.state.processor.queues r pub) := by
    by_cases hs : size = 0
    · rw [if_pos hs]
      exact skipPhase_ok hb hstart (hzero hs)
    · rw [if_neg hs]
      exact runPhase_ok hh hb readings pooled hstart hpos hdegree hsize
  obtain ⟨c₂, hend, halike⟩ := endPhase_ok readings phase t₁.state
  exact ⟨{ t₁ with state := c₂ }, calls, r, pub,
    tryFinally_ok ((bind_ok (Threaded.lift_ok hphaseSize)).trans hbody) (Threaded.lift_ok hend),
    hstart₁, hp.alike halike, hdone, hordered⟩

end Pass

end Referents
