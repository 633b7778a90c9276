import Referents.Proofs.Phases

/-!
# A whole processing cycle

The three phases are put together.  Each has an invariant of its own that
relates the calls of the collector in this phase to the world, because what the
answers of a collector mean differs from phase to phase: the third goes by what
the second has made reachable.

* `Pass.begin_ok` — discovery is stopped, and everything listed is counted.
* `Pass.process_ok` — the cycle returns, all lists are empty, and what happened
  in between is what the phases did one after the other.  Without a pool the
  references are published in the order in which the lists are visited.
-/

namespace Referents

variable {γ : Type} {hooks : Hooks γ}

/-- The processor that a cycle leaves, but for lists, turn and journal: it
does not discover any more, and its clock was advanced to `now`. -/
def Processor.afterCycle (p : Processor) (now : Int) : Processor :=
  { p with enabled := false, clock := (p.clock.advanceTo now).2 }

/-- What was done in a phase: it led from the roster `r` on the heap `h` to the
roster `r'` on the heap `g`. -/
structure PhaseRun (phase : Phase) (r : Roster) (h : Heap) (calls : List Call)
    (pub : List Handle) (r' : Roster) (g : Heap) : Prop where
  settles : Settles calls r h pub r' g
  done : PhaseDone phase h r calls r' pub

/-- What a phase publishes is of the kinds that it works on. -/
theorem PhaseRun.kind_of_published {phase : Phase} {r r' : Roster} {h g : Heap}
    {calls : List Call} {pub : List Handle} {o : Handle}
    (hrun : PhaseRun phase r h calls pub r' g) (ho : o ∈ pub) :
    ∃ k ∈ phase.kinds, r.lists k o := by
  obtain ⟨k, hl, hgone⟩ := hrun.settles.published o ho
  refine ⟨k, ?_, hl⟩
  by_contra hk
  rw [Roster.lists, hrun.done.others k hk] at hgone
  exact hgone hl

/-- A reference that a phase publishes is of no other kind. -/
theorem PhaseRun.mem_kinds {phase : Phase} {r r₀ r' : Roster} {h g : Heap} {calls : List Call}
    {pub : List Handle} {k : RefKind} {o : Handle} (hrun : PhaseRun phase r h calls pub r' g)
    (hdisjoint : r₀.Disjoint) (hlisted : ∀ k o, r.lists k o → r₀.lists k o) (hk : r₀.lists k o)
    (ho : o ∈ pub) : k ∈ phase.kinds := by
  obtain ⟨k', hk', hl⟩ := hrun.kind_of_published ho
  rwa [hdisjoint k' k o (hlisted k' o hl) hk] at hk'

/-- The stages of a cycle: the worlds after its phases, the calls and the
published references of each, and the rosters. -/
structure Stages (γ : Type) where
  world₁ : World γ
  world₂ : World γ
  calls₁ : List Call
  calls₂ : List Call
  calls₃ : List Call
  pub₁ : List Handle
  pub₂ : List Handle
  pub₃ : List Handle
  roster₁ : Roster
  roster₂ : Roster
  roster₃ : Roster

/-- The references that were published in a cycle, the last ones first. -/
def Stages.published (s : Stages γ) : List Handle := s.pub₃ ++ s.pub₂ ++ s.pub₁

theorem Stages.mem_published {s : Stages γ} {o : Handle} :
    o ∈ s.published ↔ o ∈ s.pub₃ ∨ o ∈ s.pub₂ ∨ o ∈ s.pub₁ := by
  simp [published]

/-- The references of a roster, as a thread that visits `n` queues in their order in
every phase would chain them. -/
def Roster.visitOrder (r : Roster) (n : Nat) : List Handle :=
  Phase.phantom.order r n ++ Phase.keepAliveFinal.order r n ++ Phase.softWeakFinal.order r n

theorem Roster.visitOrder_sublist {r r' : Roster} (hsub : ∀ k q, (r' k q).Sublist (r k q))
    (n : Nat) : (r'.visitOrder n).Sublist (r.visitOrder n) :=
  ((Phase.phantom.order_sublist hsub n).append (Phase.keepAliveFinal.order_sublist hsub n)).append
    (Phase.softWeakFinal.order_sublist hsub n)

theorem Phase.mem_order {phase : Phase} {r : Roster} {n : Nat} {o : Handle}
    (ho : o ∈ phase.order r n) : ∃ k ∈ phase.publishes, ∃ q, o ∈ r k q := by
  obtain ⟨q, -, ho⟩ := List.mem_flatMap.mp ho
  obtain ⟨k, hk, ho⟩ := List.mem_flatMap.mp ho
  exact ⟨k, hk, q, ho⟩

/-- A visit comes to every reference once. -/
theorem Registered.nodup_order {p : Processor} {h : Heap} {r : Roster} {ps : List Handle}
    (hr : Registered p h r ps) (phase : Phase) (n : Nat) : (phase.order r n).Nodup := by
  refine List.nodup_flatMap.mpr ⟨fun q _ => List.nodup_flatMap.mpr ⟨?_, ?_⟩, ?_⟩
  · exact fun k _ => (hr.spread k).nodup q
  · have hkinds : phase.publishes.Nodup := by cases phase <;> decide
    refine hkinds.pairwise_of_forall_ne fun k _ k' _ hne => ?_
    exact fun o ho ho' => hne (hr.apart ho ho').1
  · refine (List.nodup_reverse.mpr List.nodup_range).pairwise_of_forall_ne fun q _ q' _ hne => ?_
    intro o ho ho'
    obtain ⟨k, -, ho⟩ := List.mem_flatMap.mp ho
    obtain ⟨k', -, ho'⟩ := List.mem_flatMap.mp ho'
    exact hne (hr.apart ho ho').2

theorem Registered.nodup_visitOrder {p : Processor} {h : Heap} {r : Roster} {ps : List Handle}
    (hr : Registered p h r ps) (n : Nat) : (r.visitOrder n).Nodup := by
  -- no kind is published in two phases
  have hdisjoint : ∀ phase phase' : Phase, (∀ k ∈ phase.publishes, k ∉ phase'.publishes) →
      (phase.order r n).Disjoint (phase'.order r n) := by
    intro phase phase' hkinds o ho ho'
    obtain ⟨k, hk, q, ho⟩ := Phase.mem_order ho
    obtain ⟨k', hk', q', ho'⟩ := Phase.mem_order ho'
    exact hkinds k hk ((hr.apart ho ho').1 ▸ hk')
  refine List.nodup_append'.mpr ⟨List.nodup_append'.mpr ⟨hr.nodup_order _ n, hr.nodup_order _ n,
    hdisjoint _ _ (by decide)⟩, hr.nodup_order _ n, List.disjoint_append_left.mpr
    ⟨hdisjoint _ _ (by decide), hdisjoint _ _ (by decide)⟩⟩

/-- The cycle from the state `c` with roster `r` to the state `c'` went through the
stages `s`. -/
structure Stages.Lead (s : Stages γ) (now : Int) (r : Roster) (ps : List Handle)
    (c c' : Cycle γ) : Prop where
  first : PhaseRun .softWeakFinal r c.world.heap s.calls₁ s.pub₁ s.roster₁ s.world₁.heap
  second : PhaseRun .keepAliveFinal s.roster₁ s.world₁.heap s.calls₂ s.pub₂ s.roster₂
    s.world₂.heap
  third : PhaseRun .phantom s.roster₂ s.world₂.heap s.calls₃ s.pub₃ s.roster₃ c'.world.heap
  empty : ∀ k q, s.roster₃ k q = []
  registered : Registered c'.processor c'.world.heap Roster.none (s.published ++ ps)
  setup : c'.processor.setup = (c.processor.afterCycle now).setup
  degree : c'.processor.degree = c.processor.degree
  turn : c'.processor.turn ≤ c.processor.turn

namespace Stages.Lead

variable {s : Stages γ} {now : Int} {r : Roster} {ps : List Handle} {c c' : Cycle γ}

/-- Three phases after each other are the stages of a cycle, once the first has begun on the
world and the lists of `c`. -/
theorem of_progress {I₁ I₂ I₃ : List Call → World γ → Prop} {c₀ c₁ c₂ : Cycle γ}
    {calls₁ calls₂ calls₃ : List Call} {pub₁ pub₂ pub₃ : List Handle} {r₁ r₂ r₃ : Roster}
    (hworld : c₀.world = c.world)
    (hsetup : c₀.processor.setup = (c.processor.afterCycle now).setup)
    (hdegree : c₀.processor.degree = c.processor.degree)
    (hturn : c₀.processor.turn = c.processor.turn)
    (hp₁ : Progress I₁ [] r ps c₀ calls₁ r₁ pub₁ c₁)
    (hp₂ : Progress I₂ [] r₁ (pub₁ ++ ps) c₁ calls₂ r₂ pub₂ c₂)
    (hp₃ : Progress I₃ [] r₂ (pub₂ ++ (pub₁ ++ ps)) c₂ calls₃ r₃ pub₃ c')
    (hdone₁ : PhaseDone .softWeakFinal c₀.world.heap r calls₁ r₁ pub₁)
    (hdone₂ : PhaseDone .keepAliveFinal c₁.world.heap r₁ calls₂ r₂ pub₂)
    (hdone₃ : PhaseDone .phantom c₂.world.heap r₂ calls₃ r₃ pub₃) (hempty : ∀ k q, r₃ k q = []) :
    Stages.Lead ⟨c₁.world, c₂.world, calls₁, calls₂, calls₃, pub₁, pub₂, pub₃, r₁, r₂, r₃⟩ now r ps
      c c' where
  first := by
    rw [← hworld]
    exact ⟨hp₁.settles, hdone₁⟩
  second := ⟨hp₂.settles, hdone₂⟩
  third := ⟨hp₃.settles, hdone₃⟩
  empty := hempty
  registered := by
    have hnone : r₃ = Roster.none := funext fun k => funext fun q => hempty k q
    have hregistered := hp₃.registered
    rw [hnone] at hregistered
    simpa [Stages.published] using hregistered
  setup := hp₃.setup.trans (hp₂.setup.trans (hp₁.setup.trans hsetup))
  degree := hp₃.degree.trans (hp₂.degree.trans (hp₁.degree.trans hdegree))
  turn := Nat.le_trans hp₃.turn (Nat.le_trans hp₂.turn (Nat.le_trans hp₁.turn
    (Nat.le_of_eq hturn)))

/-- The three phases together. -/
theorem settles (hl : s.Lead now r ps c c') (hr : Registered c.processor c.world.heap r ps) :
    Settles (s.calls₁ ++ s.calls₂ ++ s.calls₃) r c.world.heap s.published s.roster₃
      c'.world.heap := by
  have hheld : ∀ k o, r.lists k o → c.world.heap.holds o = true := fun _ _ => hr.lists_held
  have hsettles := (hl.first.settles.trans hl.second.settles hr.disjoint hheld).trans
    hl.third.settles hr.disjoint hheld
  rw [← List.append_assoc] at hsettles
  exact hsettles

theorem empty_lists (hl : s.Lead now r ps c c') {k : RefKind} {o : Handle} :
    ¬ s.roster₃.lists k o := by
  intro hlisted
  obtain ⟨q, hq⟩ := hlisted
  rw [hl.empty k q] at hq
  cases hq

end Stages.Lead

namespace Pass

variable {t : Threaded (Cycle γ)} {r : Roster} {ps : List Handle} {c : Cycle γ}

/-- How many references are listed, by kind. -/
def listedCounts (r : Roster) (queues : Nat) : CycleCounts :=
  ⟨(gather (r .soft) queues).length, (gather (r .weak) queues).length,
    (gather (r .final) queues).length, (gather (r .phantom) queues).length⟩

theorem get_listedCounts (r : Roster) (queues : Nat) (k : RefKind) :
    (listedCounts r queues).get k = (gather (r k) queues).length := by
  cases k <;> rfl

/-- Beginning a cycle counts what is listed. -/
theorem begin_ok (hr : Registered c.processor c.world.heap r ps) (readings : Readings) :
    ∃ c', (begin readings : Step γ CycleCounts) c =
        .ok (listedCounts r c.processor.queues) c' ∧
      c'.world = c.world ∧ c'.processor.lists = c.processor.lists ∧
      c'.processor.setup = (c.processor.afterCycle readings.now).setup ∧
      c'.processor.degree = c.processor.degree ∧ c'.processor.turn = c.processor.turn ∧
      c'.times.discovered = listedCounts r c.processor.queues ∧
      c'.times.maxWorkers = c.times.maxWorkers := by
  have hr₁ : Registered c.processor.disable c.world.heap r ps := hr.of_lists rfl rfl
  have htotal := fun k => hr₁.total_ok k
  obtain ⟨c₁, hc₁⟩ : ∃ c₁ : Cycle γ, c₁ = { c with processor := c.processor.disable } :=
    ⟨_, rfl⟩
  have hdisable : (Step.updateProcessor fun p => .ok p.disable : Step γ Unit) c = .ok () c₁ := by
    rw [hc₁]
    exact Step.updateProcessor_ok rfl
  obtain ⟨c₂, hc₂⟩ : ∃ c₂ : Cycle γ, c₂ = { c₁ with
      times := { c₁.times with discovered := listedCounts r c.processor.queues }
      processor := c.processor.afterCycle readings.now } := ⟨_, rfl⟩
  -- the clock is advanced, and what follows only writes records
  obtain ⟨c₃, hrest, halike⟩ : ∃ c₃, (do
      unless (c.processor.clock.advanceTo readings.now).1 do
        Step.log (.clockWarp readings.now (c.processor.clock.advanceTo readings.now).2.millis)
      Step.updateTimes fun times => times.setMulti c.processor.disable.isMulti
      return listedCounts r c.processor.queues : Step γ CycleCounts) c₂ =
        .ok (listedCounts r c.processor.queues) c₃ ∧ c₂.Alike c₃ := by
    have hmulti := fun c₃ : Cycle γ => Step.updateTimes_ok
      (f := fun times => times.setMulti c.processor.disable.isMulti) (fun _ => ⟨rfl, rfl, rfl⟩) c₃
    by_cases hadvanced : (c.processor.clock.advanceTo readings.now).1 = true
    · obtain ⟨c₄, htimes, halike₄⟩ := hmulti c₂
      refine ⟨c₄, ?_, halike₄⟩
      rw [if_pos hadvanced]
      exact (bind_ok htimes).trans rfl
    · obtain ⟨c₃, hlog, halike₃⟩ := Step.log_ok
        (.clockWarp readings.now (c.processor.clock.advanceTo readings.now).2.millis) c₂
      obtain ⟨c₄, htimes, halike₄⟩ := hmulti c₃
      refine ⟨c₄, ?_, halike₃.trans halike₄⟩
      rw [if_neg hadvanced]
      exact (bind_ok hlog).trans ((bind_ok htimes).trans rfl)
  rw [hc₂, hc₁] at halike
  refine ⟨c₃, ?_, halike.world, halike.lists, halike.setup, halike.degree, halike.turn,
    halike.discovered, halike.maxWorkers⟩
  unfold begin
  refine (bind_ok hdisable).trans ?_
  refine (bind_ok (Step.processor_ok c₁)).trans ?_
  rw [hc₁]
  refine (bind_ok (Step.ofExcept_ok (htotal .soft))).trans ?_
  refine (bind_ok (Step.ofExcept_ok (htotal .weak))).trans ?_
  refine (bind_ok (Step.ofExcept_ok (htotal .final))).trans ?_
  refine (bind_ok (Step.ofExcept_ok (htotal .phantom))).trans ?_
  refine (bind_ok (modify_ok _ _)).trans ?_
  refine (bind_ok (modify_ok _ _)).trans ?_
  rw [hc₂, hc₁] at hrest
  exact hrest

/-- The three phases leave nothing on the lists. -/
theorem finished_of_phases {h₁ h₂ h₃ : Heap} {r₁ r₂ r₃ : Roster}
    {calls₁ calls₂ calls₃ : List Call} {pub₁ pub₂ pub₃ : List Handle}
    (hdone₁ : PhaseDone .softWeakFinal h₁ r calls₁ r₁ pub₁)
    (hdone₂ : PhaseDone .keepAliveFinal h₂ r₁ calls₂ r₂ pub₂)
    (hdone₃ : PhaseDone .phantom h₃ r₂ calls₃ r₃ pub₃) (k : RefKind) (q : Nat) : r₃ k q = [] := by
  cases k with
  | soft =>
      rw [hdone₃.others .soft (by simp [Phase.kinds]),
        hdone₂.others .soft (by simp [Phase.kinds])]
      exact hdone₁.finished .soft (by simp [Phase.finishes]) q
  | weak =>
      rw [hdone₃.others .weak (by simp [Phase.kinds]),
        hdone₂.others .weak (by simp [Phase.kinds])]
      exact hdone₁.finished .weak (by simp [Phase.finishes]) q
  | final =>
      rw [hdone₃.others .final (by simp [Phase.kinds])]
      exact hdone₂.finished .final (by simp [Phase.finishes]) q
  | phantom => exact hdone₃.finished .phantom (by simp [Phase.finishes]) q

/-- Phases that visit the queues in their order publish in the order of a visit. -/
theorem published_sublist {n : Nat} {r₁ r₂ r₃ : Roster} {pub₁ pub₂ pub₃ : List Handle}
    (ho₁ : PhaseOrdered .softWeakFinal r n r₁ pub₁)
    (ho₂ : PhaseOrdered .keepAliveFinal r₁ n r₂ pub₂) (ho₃ : PhaseOrdered .phantom r₂ n r₃ pub₃) :
    (pub₃ ++ pub₂ ++ pub₁).Sublist (r.visitOrder n) := by
  have hleft₂ : ∀ k q, (r₂ k q).Sublist (r k q) := fun k q => (ho₂.left k q).trans (ho₁.left k q)
  have hthird := ho₃.published.trans (Phase.phantom.order_sublist hleft₂ n)
  have hsecond := ho₂.published.trans (Phase.keepAliveFinal.order_sublist ho₁.left n)
  exact (hthird.append hsecond).append ho₁.published

/-- The cycle ends once the lists are empty. -/
theorem finish_ok {I : List Call → World γ → Prop} {prev calls : List Call} {r₀ : Roster}
    {ps₀ pub : List Handle} {c₀ : Cycle γ} (hp : Progress I prev r₀ ps₀ c₀ calls r pub c)
    (hempty : ∀ k q, r k q = []) (counts : CycleCounts) (readings : Readings) :
    ∃ c', (do
        Step.updateTimes fun t => t.setTotal (readings.took .whole)
        Step.ofExcept (← Step.processor).verifyEmpty
        Step.log (.summary counts.soft counts.weak counts.final counts.phantom
          (millisOfNanos (readings.took .whole))) : Step γ Unit) c = .ok () c' ∧
      Progress I prev r₀ ps₀ c₀ calls r pub c' := by
  obtain ⟨c₁, htotal, halike₁⟩ := Step.updateTimes_ok
    (f := fun times => times.setTotal (readings.took .whole)) (fun _ => ⟨rfl, rfl, rfl⟩) c
  have hp₁ := hp.alike halike₁
  obtain ⟨c₂, hsummary, halike₂⟩ := Step.log_ok
    (.summary counts.soft counts.weak counts.final counts.phantom
      (millisOfNanos (readings.took .whole))) c₁
  refine ⟨c₂, ?_, hp₁.alike halike₂⟩
  refine (bind_ok htotal).trans ?_
  refine (bind_ok (Step.processor_ok c₁)).trans ?_
  exact (bind_ok (Step.ofExcept_ok (hp₁.registered.verifyEmpty_ok hempty))).trans hsummary

/-- The final references that the first phase spares have targets, so the second can keep
these alive. -/
theorem begins_keepAlive {I : List Call → World γ → Prop} {J : List Call → World γ → Prop}
    {c c₁ : Cycle γ} {calls : List Call} {r₁ : Roster} {pub : List Handle}
    (hfresh : ∀ o, r.lists .final o → c.world.heap.nextLink o = none)
    (hp : Progress I [] r ps c calls r₁ pub c₁)
    (hdone : PhaseDone .softWeakFinal c.world.heap r calls r₁ pub) (hJ : J [] c₁.world)
    (hroom : c.times.HasRoom c.processor.queues) :
    Begins J [] .keepAliveFinal r₁ (pub ++ ps) c₁ := by
  refine ⟨hp.registered, by rw [hp.config_eq]; exact hp.points, hJ, hp.hasRoom hroom,
    fun _ o ho => ⟨?_, ?_⟩⟩
  · obtain ⟨x, hx, -⟩ := hdone.spared rfl o ho
    rw [hp.settles.target .final o ho, hx]
    exact Option.some_ne_none x
  · rw [hp.settles.next .final o ho]
    exact hfresh o (hp.settles.listed .final o ho)

/-- What a cycle needs of its host: a pool that it is given can start threads, and there is
room for the times of the workers of all queues. -/
structure Equipped (pooled : Bool) (t : Threaded (Cycle γ)) : Prop where
  canStart : pooled = true → ∀ p ∈ t.pool, p.CanStart
  room : t.state.times.HasRoom t.state.processor.queues

/-- A processing cycle returns; its lists are empty afterwards. -/
theorem process_ok {I₁ : List Call → World γ → Prop} {I₂ I₃ : World γ → List Call → World γ → Prop}
    (h₁ : hooks.Resolving I₁) (h₂ : ∀ w, hooks.KeepingFinals (I₂ w))
    (h₃ : ∀ w, hooks.Resolving (I₃ w))
    (h₁₂ : ∀ calls w, I₁ calls w → I₂ w [] w)
    (h₂₃ : ∀ w₁ calls w, I₂ w₁ calls w → Rested calls → I₃ w [] w)
    (hr : Registered t.state.processor t.state.world.heap r ps)
    (hready : Ready t.state.processor.config.concurrentDiscovery t.state.world.heap r)
    (hI : I₁ [] t.state.world) (hpos : 1 ≤ t.state.processor.degree)
    (hdegree : t.state.processor.degree ≤ t.state.processor.queues)
    (readings : Readings) {pooled : Bool} (hequipped : Equipped pooled t) :
    ∃ t' s, process hooks readings pooled t = .ok (listedCounts r t.state.processor.queues) t' ∧
      Stages.Lead s readings.now r ps t.state t'.state ∧ I₁ s.calls₁ s.world₁ ∧
      I₂ s.world₁ s.calls₂ s.world₂ ∧ I₃ s.world₂ s.calls₃ t'.state.world ∧
      ((pooled && t.pool.isSome) = false →
        s.published.Sublist (r.visitOrder t.state.processor.queues)) := by
  obtain ⟨c₀, hbegin, hworld, hlists, hsetup, hdeg, hturn, hcounts, hmaxWorkers⟩ :=
    begin_ok hr readings
  have hconfig : c₀.processor.config = t.state.processor.config :=
    (Processor.config_eq_of_setup hsetup).trans rfl
  have hqueues : c₀.processor.queues = t.state.processor.queues := Processor.queues_congr hconfig
  have hpos₀ : 1 ≤ c₀.processor.degree := by
    rw [hdeg]
    exact hpos
  have hdegree₀ : c₀.processor.degree ≤ c₀.processor.queues := by
    rw [hdeg, hqueues]
    exact hdegree
  have hroom : c₀.times.HasRoom c₀.processor.queues := by
    rw [PhaseTimes.HasRoom, hmaxWorkers, hqueues]
    exact hequipped.room
  have hstart : CanStart (pooled && t.pool.isSome) { t with state := c₀ } := fun hpooled =>
    hequipped.canStart (Bool.and_eq_true_iff.mp hpooled).1
  -- the first phase
  have hb₁ : Begins I₁ [] .softWeakFinal r ps c₀ := by
    refine ⟨?_, ?_, by rw [hworld]; exact hI, hroom, fun e => absurd e (by simp)⟩
    · rw [hworld]
      exact hr.of_lists hlists hconfig
    · rw [hworld, hconfig]
      exact hready.pointing
  obtain ⟨t₁, calls₁, r₁, pub₁, hrun₁, hstart₁, hp₁, hdone₁, hordered₁⟩ :=
    phase_ok (t := { t with state := c₀ })
      (show hooks.Serves .softWeakFinal I₁ from h₁) hb₁ readings (pooled && t.pool.isSome)
      hstart hpos₀ hdegree₀ (fun _ k _ => by rw [hcounts, get_listedCounts, hqueues])
  have hI₁ : I₁ calls₁ t₁.state.world := by simpa using hp₁.inv
  have hpos₁ := hp₁.degree_pos hpos₀
  have hdegree₁ := hp₁.degree_le_queues hdegree₀
  -- the second
  have hfresh : ∀ o, r.lists .final o → c₀.world.heap.nextLink o = none := by
    rw [hworld]
    exact hready.fresh
  have hb₂ : Begins (I₂ t₁.state.world) [] .keepAliveFinal r₁ (pub₁ ++ ps) t₁.state :=
    begins_keepAlive hfresh hp₁ hdone₁ (h₁₂ calls₁ _ hI₁) hroom
  obtain ⟨t₂, calls₂, r₂, pub₂, hrun₂, hstart₂, hp₂, hdone₂, hordered₂⟩ :=
    phase_ok (t := t₁) (show hooks.Serves .keepAliveFinal _ from h₂ t₁.state.world) hb₂
      readings (pooled && t.pool.isSome) hstart₁ hpos₁ hdegree₁ (fun e => absurd rfl e)
  have hI₂ : I₂ t₁.state.world calls₂ t₂.state.world := by simpa using hp₂.inv
  have hqueues₁ : t₁.state.processor.queues = t.state.processor.queues :=
    hp₁.queues_eq.trans hqueues
  have hqueues₂ : t₂.state.processor.queues = t.state.processor.queues :=
    hp₂.queues_eq.trans hqueues₁
  -- the third, whose references are those that were counted at the beginning
  have hphantom : r₂ .phantom = r .phantom :=
    (hdone₂.others .phantom (by simp [Phase.kinds])).trans
      (hdone₁.others .phantom (by simp [Phase.kinds]))
  have hb₃ : Begins (I₃ t₂.state.world) [] .phantom r₂ (pub₂ ++ (pub₁ ++ ps)) t₂.state :=
    ⟨hp₂.registered, by rw [hp₂.config_eq]; exact hp₂.points,
      h₂₃ _ calls₂ _ hI₂ hdone₂.rested, hp₂.hasRoom (hp₁.hasRoom hroom),
      fun e => absurd e (by simp)⟩
  obtain ⟨t₃, calls₃, r₃, pub₃, hrun₃, -, hp₃, hdone₃, hordered₃⟩ :=
    phase_ok (t := t₂) (show hooks.Serves .phantom _ from h₃ t₂.state.world) hb₃
      readings (pooled && t.pool.isSome) hstart₂ (hp₂.degree_pos hpos₁) (hp₂.degree_le_queues hdegree₁)
      (fun _ k hk => by
        have hk : k = .phantom := by simpa [Phase.kinds] using hk
        rw [hk, hp₂.discovered, hp₁.discovered, hqueues₂, hphantom]
        exact (congrArg (PerKind.get · .phantom) hcounts).trans
          (get_listedCounts r t.state.processor.queues .phantom))
  -- the end
  have hempty := finished_of_phases hdone₁ hdone₂ hdone₃
  obtain ⟨c₄, hfinish, hp₄⟩ :=
    finish_ok hp₃ hempty (listedCounts r t.state.processor.queues) readings
  refine ⟨{ t₃ with state := c₄ }, _, ?_,
    .of_progress hworld hsetup hdeg hturn hp₁ hp₂ hp₄ hdone₁ hdone₂ hdone₃ hempty, hI₁, hI₂,
    by simpa using hp₄.inv, fun hserial => ?_⟩
  · unfold process
    refine (bind_ok (get_ok t)).trans ?_
    refine (bind_ok (Threaded.lift_ok hbegin)).trans ?_
    refine (bind_ok hrun₁).trans ?_
    refine (bind_ok hrun₂).trans ?_
    refine (bind_ok hrun₃).trans ?_
    exact (bind_ok (Threaded.lift_ok hfinish)).trans rfl
  · have ho₁ := hordered₁ hserial
    have ho₂ := hordered₂ hserial
    have ho₃ := hordered₃ hserial
    rw [show c₀.processor.queues = t.state.processor.queues from hqueues] at ho₁
    rw [hqueues₁] at ho₂
    rw [hqueues₂] at ho₃
    exact published_sublist ho₁ ho₂ ho₃

end Pass

end Referents
