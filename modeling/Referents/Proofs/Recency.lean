import Referents.Proofs.Operations

/-!
# Recently used soft references

Under the least-recently-used policies a soft reference is given up for discovery once
it has not been read for longer than an interval, and the interval grows with the free
space.  The time of its last access was taken from a clock that goes on running, but the
age of the reference is taken from the reading of that clock when discovery was enabled.
So a reference may have been stamped after that reading; its age is negative then, and
since no interval is negative, it is kept.

* `Recent` — the invariant: stamps do not run ahead of the clock, and the interval is one
  of the policy that the configuration asks for.
* `SoftOp`, `SoftRuns` — what may happen to the clock, the policy and the references.
* `Elapsed` — what a run leaves as it was.
* `Ripe`, `Recent.offer_ok` — when an offered soft reference counts as discovered.
* `recency_respected` — recent references are kept, and what is given up is given up at
  every greater age and with any less headroom.
-/

namespace Referents

variable {γ : Type} {c d e : Cycle γ} {r : Roster} {i j k : Int} {xs ys : List SoftOp}
variable {worker : Option Nat} {o : Handle}

/-! ### The interval -/

/-- A product of stamps that saturates is a stamp. -/
theorem isStamp_mulSaturating {a b : Int} (ha : 0 ≤ a) (hb : 0 ≤ b) :
    IsStamp (mulSaturating a b) := by
  have hpos : 0 ≤ a * b := Int.mul_nonneg ha hb
  unfold IsStamp mulSaturating
  omega

/-- A saturating product grows with its first factor. -/
theorem mulSaturating_mono {a a' b : Int} (ha : a ≤ a') (hb : 0 ≤ b) :
    mulSaturating a b ≤ mulSaturating a' b := by
  have hmul : a * b ≤ a' * b := Int.mul_le_mul_of_nonneg_right ha hb
  unfold mulSaturating
  omega

/-- The space that a policy counts, in bytes. -/
def Occupancy.headroom (space : Occupancy) : SpaceBasis → Nat
  | .currentHeap => space.free
  | .maxHeap => space.max - space.used

/-- Less headroom is fewer megabytes. -/
theorem SoftPolicy.megabytes_mono {basis : SpaceBasis} {space space' : Occupancy}
    (h : space'.headroom basis ≤ space.headroom basis) :
    megabytes basis space' ≤ megabytes basis space := by
  cases basis with
  | currentHeap => exact Nat.div_le_div_right h
  | maxHeap => exact Nat.div_le_div_right h

/-- How many milliseconds soft references survive without an access. -/
def Config.softInterval (config : Config) (space : Occupancy) : Int :=
  mulSaturating (SoftPolicy.megabytes config.softBasis space) config.softMillisPerMegabyte

/-- Less headroom makes the interval no longer. -/
theorem Config.softInterval_mono {config : Config} (hrate : 0 ≤ config.softMillisPerMegabyte)
    {space space' : Occupancy}
    (h : space'.headroom config.softBasis ≤ space.headroom config.softBasis) :
    config.softInterval space' ≤ config.softInterval space :=
  mulSaturating_mono (Int.ofNat_le.mpr (SoftPolicy.megabytes_mono h)) hrate

/-! ### The clock -/

namespace SoftClock

/-- A clock never goes back. -/
theorem le_advanceTo (clock : SoftClock) (now : Int) :
    clock.millis ≤ (clock.advanceTo now).2.millis := by
  unfold advanceTo
  split
  · exact Int.le_refl _
  · exact Int.le_max_left _ _

/-- After an access a reference has the stamp of the clock, whether it was set or not. -/
theorem recordAccess_ok (clock : SoftClock) {h : Heap} (ho : h.holds o = true) :
    ∃ g, clock.recordAccess h o = .ok g ∧ Heap.Stamped o clock.millis h g := by
  obtain ⟨t, ht, -, hstamp⟩ := Heap.traits_ok ho
  obtain ⟨g, hset, hg⟩ := Heap.setTimestamp_stamped clock.millis ho
  unfold recordAccess
  by_cases hsame : t.timestamp = clock.millis
  · refine ⟨h, (except_bind_ok hstamp).trans (if_pos hsame), rfl, rfl, rfl, rfl, fun p => ?_⟩
    by_cases hp : p = o
    · rw [hp, ht, ← hsame]
      simp
    · cases h.traits p <;> simp [hp]
  · exact ⟨g, (except_bind_ok hstamp).trans ((if_neg hsame).trans hset), hg⟩

end SoftClock

/-! ### Operations -/

/-- What happens to the clock, the policy and soft references. -/
inductive SoftOp where
  | setUp (space : Occupancy)
  | advance (now : Int)
  /-- A mutator reads a reference. -/
  | access (o : Handle)
  | enable
  | disable
  | abandon
  | offer (worker : Option Nat) (o : Handle)

namespace SoftOp

/-- Runs an operation; only offers are answered. -/
def run : SoftOp → Step γ (Option Bool)
  | .setUp space => setting fun p => p.setupPolicy false space
  | .advance now => setting fun p => { p with clock := (p.clock.advanceTo now).2 }
  | .access o => do
      Step.withHeap fun p h sink => do return (p, ← p.clock.recordAccess h o, sink)
      return none
  | .enable => do
      Step.updateProcessor Processor.enable
      return none
  | .disable => setting Processor.disable
  | .abandon => do
      Step.withHeap Processor.abandon
      return none
  | .offer worker o => do return some (← Step.discover worker o (some .soft))
where
  /-- Changes a setting of the processor. -/
  setting (f : Processor → Processor) : Step γ (Option Bool) := do
    Step.updateProcessor fun p => .ok (f p)
    return none

/-- A setting of the processor is changed without a fault, and not answered. -/
theorem setting_ok (f : Processor → Processor) (c : Cycle γ) :
    run.setting f c = .ok none { c with processor := f c.processor } := by
  have hset : (Step.updateProcessor fun p => .ok (f p) : Step γ Unit) c =
      .ok () { c with processor := f c.processor } := Step.updateProcessor_ok rfl
  exact (bind_ok hset).trans rfl

/-- What an operation may be asked for. -/
def Allowed (c : Cycle γ) : SoftOp → Prop
  | .advance now => now < 2 ^ 63
  | .access o => c.world.heap.holds o = true
  | .enable => c.processor.enabled = false ∧ ∀ k q, c.members k q = []
  | .offer worker o => c.world.heap.kindOf o = some .soft ∧
      (c.processor.multiDiscovery = true → worker.getD 0 < c.processor.queues)
  | _ => True

end SoftOp

/-- The operations lead from one state to another, each of them allowed where it stands. -/
inductive SoftRuns : List SoftOp → Cycle γ → Cycle γ → Prop
  | nil (c : Cycle γ) : SoftRuns [] c c
  | cons {x : SoftOp} {xs : List SoftOp} {c d e : Cycle γ} {answer : Option Bool} :
      x.Allowed c → x.run c = .ok answer d → SoftRuns xs d e → SoftRuns (x :: xs) c e

/-- An offer of `o` is answered. -/
def Cycle.Answers (c : Cycle γ) (worker : Option Nat) (o : Handle) (answer : Bool) : Prop :=
  ∃ d, (SoftOp.offer worker o).run c = .ok (some answer) d

/-- The object is in scope, and its target is not known to be reachable. -/
def Cycle.Eligible (c : Cycle γ) (o : Handle) : Prop :=
  c.processor.scope.contains c.world.heap o = .ok true ∧
    c.processor.isKnownAlive c.world.heap o = .ok false

/-! ### What a run leaves as it was -/

/-- From `c` to `d` the clock has not gone back, the same references are eligible, and
what decides about them has changed only where the operations `xs` say so; the interval
was `i` and is `j`. -/
structure Elapsed (xs : List SoftOp) (c : Cycle γ) (i : Int) (d : Cycle γ) (j : Int) :
    Prop where
  clock : c.processor.clock.millis ≤ d.processor.clock.millis
  config : d.processor.config = c.processor.config
  held : ∀ o, d.world.heap.holds o = c.world.heap.holds o
  eligible : ∀ o, c.world.heap.holds o = true → (d.Eligible o ↔ c.Eligible o)
  snapshot : .enable ∉ xs → d.processor.snapshot = c.processor.snapshot
  /-- Discovery goes on, and is not enabled a second time. -/
  enabled : .disable ∉ xs → c.processor.enabled = true →
    d.processor.enabled = true ∧ .enable ∉ xs
  interval : (∀ space, .setUp space ∉ xs) → j = i

namespace Elapsed

theorem refl (c : Cycle γ) (i : Int) : Elapsed [] c i c i :=
  ⟨Int.le_refl _, rfl, fun _ => rfl, fun _ _ => .rfl, fun _ => rfl,
    fun _ hon => ⟨hon, List.not_mem_nil⟩, fun _ => rfl⟩

/-- Runs in a row: the clock has gone on in both, and what both have left is left. -/
theorem trans (hd : Elapsed xs c i d j) (he : Elapsed ys d j e k) :
    Elapsed (xs ++ ys) c i e k where
  clock := Int.le_trans hd.clock he.clock
  config := he.config.trans hd.config
  held o := (he.held o).trans (hd.held o)
  eligible o ho := (he.eligible o (by rw [hd.held]; exact ho)).trans (hd.eligible o ho)
  snapshot hxs := by
    rw [List.mem_append, not_or] at hxs
    exact (he.snapshot hxs.2).trans (hd.snapshot hxs.1)
  enabled hxs hon := by
    rw [List.mem_append, not_or] at hxs ⊢
    obtain ⟨hon', hnone⟩ := hd.enabled hxs.1 hon
    obtain ⟨hon'', hnone'⟩ := he.enabled hxs.2 hon'
    exact ⟨hon'', hnone, hnone'⟩
  interval hxs := by
    simp only [List.mem_append, not_or] at hxs
    exact (he.interval fun space => (hxs space).2).trans (hd.interval fun space => (hxs space).1)

/-- The processor has only its lists changed, and objects keep generation and target. -/
theorem of_setup {x : SoftOp} (hx : x ≠ .enable) (i : Int)
    (hsetup : d.processor.setup = c.processor.setup)
    (hheld : ∀ o, d.world.heap.holds o = c.world.heap.holds o)
    (hgeneration : ∀ o, (d.world.heap.traits o).map Traits.generation =
      (c.world.heap.traits o).map Traits.generation)
    (htarget : ∀ o, d.world.heap.target o = c.world.heap.target o) : Elapsed [x] c i d i := by
  have hlike := Processor.judgesLike_of_setup hsetup
  constructor
  case clock => rw [Processor.clock_eq_of_setup hsetup]
  case config => exact Processor.config_eq_of_setup hsetup
  case held => exact hheld
  case eligible =>
    intro o ho
    obtain ⟨t, ht, hgen, -⟩ := Heap.traits_ok ho
    have ho' : d.world.heap.holds o = true := by rw [hheld]; exact ho
    obtain ⟨t', ht', hgen', -⟩ := Heap.traits_ok ho'
    have hsame := hgeneration o
    rw [ht, ht', Option.map_some, Option.map_some, Option.some.injEq] at hsame
    unfold Cycle.Eligible
    rw [Processor.contains_congr hlike.scope (hgen'.trans (by rw [hsame, hgen])),
      Processor.isKnownAlive_congr hlike.knownAlive
        ((Heap.referent_ok ho').trans (by rw [htarget, Heap.referent_ok ho]))]
  case snapshot => exact fun _ => hlike.snapshot
  case enabled =>
    intro _ hon
    rw [hlike.enabled, List.mem_singleton]
    exact ⟨hon, fun he => hx he.symm⟩
  case interval => exact fun _ => rfl

end Elapsed

/-! ### The invariant -/

/-- The cycle is sound with nothing pending, no stamp is ahead of the clock, and the policy
for soft references is the configured one, with the interval `i`. -/
structure Recent (c : Cycle γ) (r : Roster) (i : Int) : Prop extends Sound c r [] where
  stamps : ∀ o t, c.world.heap.traits o = some t → t.timestamp ≤ c.processor.clock.millis
  rate : 0 ≤ c.processor.config.softMillisPerMegabyte
  policy : c.processor.policy = .leastRecentlyUsed c.processor.config.softBasis
    c.processor.config.softMillisPerMegabyte i
  chosen : c.processor.clearAll = false
  interval : IsStamp i

namespace Recent

/-- The processor has only its lists changed. -/
theorem of_setup (hc : Recent c r i) {r' : Roster} (hs : Sound d r' [])
    (hsetup : d.processor.setup = c.processor.setup)
    (hstamps : ∀ o t, d.world.heap.traits o = some t →
      t.timestamp ≤ c.processor.clock.millis) : Recent d r' i := by
  have hconfig := Processor.config_eq_of_setup hsetup
  refine ⟨hs, fun o t ht => ?_, ?_, ?_, ?_, hc.interval⟩
  · rw [Processor.clock_eq_of_setup hsetup]
    exact hstamps o t ht
  · rw [hconfig]
    exact hc.rate
  · show d.processor.setup.policy = _
    rw [hsetup, hconfig]
    exact hc.policy
  · show d.processor.setup.clearAll = false
    rw [hsetup]
    exact hc.chosen

/-- References were moved between lists. -/
theorem of_relisted (hc : Recent c r i) {r' : Roster} (hd : Relisted c d r' [])
    {x : SoftOp} (hx : x ≠ .enable) : Recent d r' i ∧ Elapsed [x] c i d i := by
  have htraits := hd.relinks.objects.traits
  refine ⟨hc.of_setup hd.toSound hd.setup fun o t ht => ?_, .of_setup hx i hd.setup
    hd.relinks.holds_eq (fun o => by rw [htraits]) hd.relinks.target_eq⟩
  rw [htraits] at ht
  exact hc.stamps o t ht

/-- Setting the policy up makes the interval that of the free space. -/
theorem setUp_ok (hc : Recent c r i) (space : Occupancy) :
    ∃ d, (SoftOp.setUp space).run c = .ok none d ∧
      Recent d r (c.processor.config.softInterval space) ∧
      Elapsed [.setUp space] c i d (c.processor.config.softInterval space) := by
  refine ⟨_, SoftOp.setting_ok _ c,
    ⟨hc.of_setting rfl rfl rfl rfl hc.clock rfl, hc.stamps, hc.rate, ?_, rfl,
      isStamp_mulSaturating (Int.natCast_nonneg _) hc.rate⟩,
    ⟨Int.le_refl _, rfl, fun _ => rfl, fun _ _ => .rfl, fun _ => rfl, fun _ hon => ⟨hon, by simp⟩,
      fun hxs => absurd List.mem_cons_self (hxs space)⟩⟩
  show c.processor.policy.setup space = _
  rw [hc.policy]
  rfl

/-- The clock goes on, and stamps stay behind it. -/
theorem advance_ok (hc : Recent c r i) {now : Int} (hnow : now < 2 ^ 63) :
    ∃ d, (SoftOp.advance now).run c = .ok none d ∧ Recent d r i ∧
      Elapsed [.advance now] c i d i := by
  have hle := c.processor.clock.le_advanceTo now
  exact ⟨_, SoftOp.setting_ok _ c,
    ⟨hc.of_setting rfl rfl rfl rfl (SoftClock.isStamp_advanceTo hc.clock hnow) rfl,
      fun o t ht => Int.le_trans (hc.stamps o t ht) hle, hc.rate, hc.policy, hc.chosen,
      hc.interval⟩,
    ⟨hle, rfl, fun _ => rfl, fun _ _ => .rfl, fun _ => rfl, fun _ hon => ⟨hon, by simp⟩,
      fun _ => rfl⟩⟩

/-- An access stamps a reference with the time of the clock. -/
theorem access_ok (hc : Recent c r i) (ho : c.world.heap.holds o = true) :
    ∃ d, (SoftOp.access o).run c = .ok none d ∧ Recent d r i ∧ Elapsed [.access o] c i d i := by
  obtain ⟨g, hrecord, hg⟩ := c.processor.clock.recordAccess_ok ho
  have hs : Sound { c with world := { c.world with heap := g } } r [] :=
    (hc.keeping (hg.keeps fun _ => rfl) (fun _ _ => by rw [hg.marks])
      (hc.sane.stamped hg hc.clock.1 hc.clock.2)).toSound
  have hwith : (Step.withHeap fun p h sink => do return (p, ← p.clock.recordAccess h o, sink) :
      Step γ Unit) c = .ok () { c with world := { c.world with heap := g } } :=
    Step.withHeap_ok ((except_bind_ok hrecord).trans rfl)
  refine ⟨_, (bind_ok hwith).trans rfl, hc.of_setup hs rfl fun p t ht => ?_,
    .of_setup (by simp) i rfl hg.holds (fun p => ?_) fun p => congrFun hg.link ⟨p, .referent⟩⟩
  · rw [hg.traits] at ht
    obtain ⟨t', ht', rfl⟩ := Option.map_eq_some_iff.mp ht
    split
    · exact Int.le_refl _
    · exact hc.stamps p t' ht'
  · rw [hg.traits]
    cases c.world.heap.traits p with
    | none => rfl
    | some t => by_cases hp : p = o <;> simp [hp]

/-- Enabling empties the roster and takes the time of the clock as the snapshot. -/
theorem enable_ok (hc : Recent c r i) (ha : SoftOp.enable.Allowed c) :
    ∃ d, SoftOp.enable.run c = .ok none d ∧ Recent d Roster.none i ∧
      Elapsed [.enable] c i d i ∧ d.processor.snapshot = c.processor.clock.millis := by
  obtain ⟨hoff, hempty⟩ := ha
  have hnone := hc.eq_none hempty
  subst hnone
  obtain ⟨hrun, hs⟩ := hc.toSound.enable_ok hoff
  refine ⟨_, (bind_ok hrun).trans rfl, ⟨hs, hc.stamps, hc.rate, hc.policy, hc.chosen, hc.interval⟩,
    ⟨Int.le_refl _, rfl, fun _ => rfl, fun _ _ => .rfl, fun hxs => absurd List.mem_cons_self hxs,
      fun _ hon => ?_, fun _ => rfl⟩, rfl⟩
  rw [hoff] at hon
  cases hon

/-- Disabling leaves lists, stamps and interval. -/
theorem disable_ok (hc : Recent c r i) :
    ∃ d, SoftOp.disable.run c = .ok none d ∧ Recent d r i ∧ Elapsed [.disable] c i d i :=
  ⟨_, SoftOp.setting_ok _ c,
    ⟨hc.of_setting rfl rfl rfl rfl hc.clock rfl, hc.stamps, hc.rate, hc.policy, hc.chosen,
      hc.interval⟩,
    ⟨Int.le_refl _, rfl, fun _ => rfl, fun _ _ => .rfl, fun _ => rfl,
      fun hxs => absurd List.mem_cons_self hxs, fun _ => rfl⟩⟩

/-- Abandoning empties the roster, and leaves stamps and interval. -/
theorem abandon_ok (hc : Recent c r i) :
    ∃ d, SoftOp.abandon.run c = .ok none d ∧ Recent d Roster.none i ∧
      Elapsed [.abandon] c i d i := by
  obtain ⟨d, hrun, hd⟩ := hc.toSound.abandon_ok
  exact ⟨d, (bind_ok hrun).trans rfl, hc.of_relisted hd (by simp)⟩

/-! ### Offers -/

/-- The age of a reference is a number that the policy can take. -/
theorem elapsed_ok (hc : Recent c r i) {s : Int} (hs : c.world.heap.timestamp o = .ok s) :
    0 ≤ s ∧ s ≤ c.processor.clock.millis ∧
      elapsedSince c.processor.snapshot s = .ok (c.processor.snapshot - s) := by
  have ho : c.world.heap.holds o = true := Heap.holds_of_timestamp hs
  obtain ⟨t, ht, -, hstamp⟩ := Heap.traits_ok ho
  rw [hs, Except.ok.injEq] at hstamp
  subst hstamp
  refine ⟨(hc.sane.stamps o t ht).1, hc.stamps o t ht, ?_⟩
  rw [elapsedSince, if_pos (hc.timely o t ht)]

/-- A reference is to be cleared if it is older than the interval at the snapshot. -/
theorem shouldClear_ok (hc : Recent c r i) {s : Int} (hs : c.world.heap.timestamp o = .ok s) :
    c.processor.currentPolicy.shouldClear c.world.heap o c.processor.snapshot =
      .ok (decide (i < c.processor.snapshot - s)) := by
  rw [Processor.currentPolicy, hc.chosen, if_neg (by simp), hc.policy]
  exact (except_bind_ok hs).trans ((except_bind_ok (hc.elapsed_ok hs).2.2).trans rfl)

end Recent

/-- What it takes for an offered soft reference to count as discovered: it has not been
read for longer than the interval `i`. -/
structure Ripe (c : Cycle γ) (i : Int) (o : Handle) : Prop where
  enabled : c.processor.enabled = true
  registers : c.processor.config.registerReferences = true
  eligible : c.Eligible o
  idle : ∀ s, c.world.heap.timestamp o = .ok s → i < c.processor.snapshot - s
  free : c.world.heap.following o = none ∨ c.processor.config.rediscovery = .treatAsDiscovered

namespace Recent

/-- A ripe reference is declined for no reason. -/
theorem not_refuses (hc : Recent c r i) (ho : c.world.heap.holds o = true) (hripe : Ripe c i o) :
    ¬ c.processor.Refuses c.world.heap o .soft := by
  obtain ⟨alive, halive, hknown⟩ := c.processor.isKnownAlive_ok ho
  intro hrefuses
  cases hrefuses with
  | disabled off =>
      rw [hripe.enabled] at off
      cases off
  | unregistered off =>
      rw [hripe.registers] at off
      cases off
  | inactive final processed => cases final
  | outOfScope outside =>
      have hin := hripe.eligible.1
      rw [outside] at hin
      cases hin
  | alive known oracle target reachable =>
      have hlost := hripe.eligible.2
      rw [halive, hknown.mpr ⟨known, _, oracle, target, reachable⟩] at hlost
      cases hlost
  | keptSoft soft kept =>
      obtain ⟨t, -, -, hstamp⟩ := Heap.traits_ok ho
      rw [hc.shouldClear_ok hstamp, Except.ok.injEq, decide_eq_false_iff_not] at kept
      exact kept (hripe.idle _ hstamp)

/-- There are no other reasons than those that a ripe reference excludes. -/
theorem ripe_of_not_refuses (hc : Recent c r i) (ho : c.world.heap.holds o = true)
    (hno : ¬ c.processor.Refuses c.world.heap o .soft)
    (hfree : c.world.heap.following o = none ∨
      c.processor.config.rediscovery = .treatAsDiscovered) : Ripe c i o where
  enabled := (Processor.active_of_not_refuses hno).1
  registers := by
    by_contra hoff
    exact hno (.unregistered (by simpa using hoff))
  eligible := by
    obtain ⟨inScope, hscope⟩ := Processor.contains_ok c.processor.scope ho
    obtain ⟨alive, halive, hknown⟩ := c.processor.isKnownAlive_ok ho
    constructor
    · cases inScope with
      | true => exact hscope
      | false => exact absurd (.outOfScope hscope) hno
    · cases alive with
      | false => exact halive
      | true =>
          obtain ⟨known, t, oracle, target, reachable⟩ := hknown.mp rfl
          exact absurd (.alive known oracle target reachable) hno
  idle s hs := by
    by_contra hyoung
    exact hno (.keptSoft rfl (by rw [hc.shouldClear_ok hs, decide_eq_false hyoung]))
  free := hfree

/-- A reference is ripe exactly if nothing declines it and it may be listed or is listed. -/
theorem ripe_iff (hc : Recent c r i) (ho : c.world.heap.holds o = true) :
    Ripe c i o ↔ c.processor.declines c.world.heap o .soft = .ok false ∧
      (c.world.heap.following o = none ∨
        c.processor.config.rediscovery = .treatAsDiscovered) := by
  obtain ⟨refused, hdeclines, hwhy⟩ := c.processor.declines_ok (k := .soft) hc.timely ho
  rw [hdeclines, Except.ok.injEq, ← Bool.not_eq_true, hwhy]
  constructor
  · exact fun hripe => ⟨hc.not_refuses ho hripe, hripe.free⟩
  · exact fun ⟨hno, hfree⟩ => hc.ripe_of_not_refuses ho hno hfree

/-- An offer returns, and it succeeds exactly with a reference that is ripe. -/
theorem offer_ok (hc : Recent c r i) (ha : (SoftOp.offer worker o).Allowed c) :
    ∃ accepted d r', (SoftOp.offer worker o).run c = .ok (some accepted) d ∧ Recent d r' i ∧
      Elapsed [.offer worker o] c i d i ∧ (accepted = true ↔ Ripe c i o) := by
  obtain ⟨hk, hworker⟩ := ha
  have ho := Heap.holds_of_kindOf hk
  obtain ⟨offer, d, r', hdiscover, hrun, hd⟩ :=
    hc.toSound.discover_ok hk hworker fun hps => absurd hps List.not_mem_nil
  obtain ⟨hd', helapsed⟩ := hc.of_relisted (x := .offer worker o) hd (by simp)
  refine ⟨offer.accepted, d, r', (bind_ok hrun).trans rfl, hd', helapsed, ?_⟩
  rw [hc.ripe_iff ho]
  exact Processor.accepted_iff ho hdiscover

/-- An allowed offer is answered `true` exactly if the reference is ripe. -/
theorem answers_true_iff (hc : Recent c r i) (ha : (SoftOp.offer worker o).Allowed c) :
    c.Answers worker o true ↔ Ripe c i o := by
  obtain ⟨accepted, d, -, hrun, -, -, hripe⟩ := hc.offer_ok ha
  rw [← hripe]
  constructor
  · intro hanswer
    obtain ⟨d', hrun'⟩ := hanswer
    rw [hrun] at hrun'
    cases hrun'
    rfl
  · intro haccepted
    subst haccepted
    exact ⟨d, hrun⟩

/-- An allowed offer of a reference that is not ripe is answered `false`. -/
theorem answers_false (hc : Recent c r i) (ha : (SoftOp.offer worker o).Allowed c)
    (hripe : ¬ Ripe c i o) : c.Answers worker o false := by
  obtain ⟨accepted, d, -, hrun, -, -, hiff⟩ := hc.offer_ok ha
  cases accepted with
  | false => exact ⟨d, hrun⟩
  | true => exact absurd (hiff.mp rfl) hripe

/-! ### Runs -/

/-- Every allowed operation returns, and keeps the invariant. -/
theorem run_ok (hc : Recent c r i) {x : SoftOp} (ha : x.Allowed c) :
    ∃ answer d r' j, x.run c = .ok answer d ∧ Recent d r' j ∧ Elapsed [x] c i d j := by
  cases x with
  | setUp space =>
      obtain ⟨d, hrun, hd, helapsed⟩ := hc.setUp_ok space
      exact ⟨none, d, r, _, hrun, hd, helapsed⟩
  | advance now =>
      obtain ⟨d, hrun, hd, helapsed⟩ := hc.advance_ok ha
      exact ⟨none, d, r, i, hrun, hd, helapsed⟩
  | access o =>
      obtain ⟨d, hrun, hd, helapsed⟩ := hc.access_ok ha
      exact ⟨none, d, r, i, hrun, hd, helapsed⟩
  | enable =>
      obtain ⟨d, hrun, hd, helapsed, -⟩ := hc.enable_ok ha
      exact ⟨none, d, _, i, hrun, hd, helapsed⟩
  | disable =>
      obtain ⟨d, hrun, hd, helapsed⟩ := hc.disable_ok
      exact ⟨none, d, r, i, hrun, hd, helapsed⟩
  | abandon =>
      obtain ⟨d, hrun, hd, helapsed⟩ := hc.abandon_ok
      exact ⟨none, d, _, i, hrun, hd, helapsed⟩
  | offer worker o =>
      obtain ⟨accepted, d, r', hrun, hd, helapsed, -⟩ := hc.offer_ok ha
      exact ⟨some accepted, d, r', i, hrun, hd, helapsed⟩

/-- So does every run. -/
theorem elapsed (hc : Recent c r i) (hruns : SoftRuns xs c d) :
    ∃ r' j, Recent d r' j ∧ Elapsed xs c i d j := by
  induction hruns generalizing r i with
  | nil c => exact ⟨r, i, hc, .refl c i⟩
  | cons ha hrun _ ih =>
      obtain ⟨answer, d, r', j, hrun', hd, hfirst⟩ := hc.run_ok ha
      rw [hrun] at hrun'
      cases hrun'
      obtain ⟨r'', k, he, hrest⟩ := ih hd
      exact ⟨r'', k, he, hfirst.trans hrest⟩

/-- After a run that starts with a setup, and has no other, the interval is that of the
space in it. -/
theorem elapsed_of_setUp (hc : Recent c r i) {space : Occupancy}
    (hruns : SoftRuns (.setUp space :: xs) c d) (hxs : ∀ space, .setUp space ∉ xs) :
    ∃ r', Recent d r' (c.processor.config.softInterval space) ∧
      Elapsed (.setUp space :: xs) c i d (c.processor.config.softInterval space) := by
  obtain ⟨c', hrun, hc', hset⟩ := hc.setUp_ok space
  cases hruns with
  | cons ha hrun' hrest =>
      rw [hrun] at hrun'
      cases hrun'
      obtain ⟨r', j, hd, helapsed⟩ := hc'.elapsed hrest
      have hj := helapsed.interval hxs
      subst hj
      exact ⟨r', hd, hset.trans helapsed⟩

/-- After a run that starts with enabling discovery, and does so only once, ages are taken
from the clock at the start. -/
theorem elapsed_of_enable (hc : Recent c r i) (hruns : SoftRuns (.enable :: xs) c d)
    (hxs : .enable ∉ xs) :
    ∃ r' j, Recent d r' j ∧ d.processor.snapshot = c.processor.clock.millis := by
  cases hruns with
  | cons ha hrun hrest =>
      obtain ⟨c', hrun', hc', -, hsnapshot⟩ := hc.enable_ok ha
      rw [hrun] at hrun'
      cases hrun'
      obtain ⟨r', j, hd, helapsed⟩ := hc'.elapsed hrest
      exact ⟨r', j, hd, (helapsed.snapshot hxs).trans hsnapshot⟩

end Recent

/-! ### Recency -/

/-- In the state `c`, and in those that follow it, soft references are judged by their age. -/
structure Cycle.RespectsRecency (c : Cycle γ) : Prop where
  /-- No operation fails. -/
  returns : ∀ x : SoftOp, x.Allowed c → ∃ answer d, x.run c = .ok answer d
  /-- The clock does not go back. -/
  clock : ∀ xs d, SoftRuns xs c d → c.processor.clock.millis ≤ d.processor.clock.millis
  /-- Stamps are between zero and the clock, and ages do not overflow. -/
  stamps : ∀ o s, c.world.heap.timestamp o = .ok s → 0 ≤ s ∧ s ≤ c.processor.clock.millis ∧
    elapsedSince c.processor.snapshot s = .ok (c.processor.snapshot - s)
  /-- The interval is a clock reading from zero on. -/
  interval : ∃ i, c.processor.policy.interval = some i ∧ IsStamp i
  /-- What was stamped when discovery was enabled, or later, is declined. -/
  fresh : ∀ xs d worker o s, SoftRuns (.enable :: xs) c d → .enable ∉ xs →
    (SoftOp.offer worker o).Allowed d → d.world.heap.timestamp o = .ok s →
    c.processor.clock.millis ≤ s → d.Answers worker o false
  /-- Where a reference is accepted, every other one that is no younger is accepted too, as
  long as discovery is not disabled and the policy is not set up again. -/
  older : ∀ xs d worker worker' o o' s s', (SoftOp.offer worker o).Allowed c →
    c.Answers worker o true → c.world.heap.timestamp o = .ok s → SoftRuns xs c d →
    .disable ∉ xs → (∀ space, .setUp space ∉ xs) → (SoftOp.offer worker' o').Allowed d →
    d.world.heap.following o' = none → d.Eligible o' → d.world.heap.timestamp o' = .ok s' →
    s' ≤ s → d.Answers worker' o' true
  /-- Where a reference is accepted under some setup, it is accepted under a setup with no
  more headroom, at the same age. -/
  tighter : ∀ space space' xs xs' d d' worker worker' o s,
    space'.headroom c.processor.config.softBasis ≤ space.headroom c.processor.config.softBasis →
    SoftRuns (.setUp space :: xs) c d → (∀ space, .setUp space ∉ xs) →
    SoftRuns (.setUp space' :: xs') c d' → (∀ space, .setUp space ∉ xs') →
    d'.processor.snapshot = d.processor.snapshot → d.world.heap.timestamp o = .ok s →
    d'.world.heap.timestamp o = .ok s → (SoftOp.offer worker o).Allowed d →
    d.Answers worker o true → (SoftOp.offer worker' o).Allowed d' →
    d'.processor.enabled = true →
    (d.world.heap.following o = none → d'.world.heap.following o = none) →
    d'.Answers worker' o true

namespace Recent

/-- What was read after discovery was enabled is not given up before the next time. -/
theorem declines_fresh (hc : Recent c r i) {s : Int} (hruns : SoftRuns (.enable :: xs) c d)
    (hxs : .enable ∉ xs) (ha : (SoftOp.offer worker o).Allowed d)
    (hs : d.world.heap.timestamp o = .ok s) (hle : c.processor.clock.millis ≤ s) :
    d.Answers worker o false := by
  obtain ⟨r', j, hd, hsnapshot⟩ := hc.elapsed_of_enable hruns hxs
  apply hd.answers_false ha
  intro hripe
  have hidle := hripe.idle s hs
  have hpos := hd.interval.1
  omega

/-- What is at least as old as an accepted reference is accepted after it. -/
theorem accepts_older (hc : Recent c r i) {worker' : Option Nat} {o' : Handle} {s s' : Int}
    (ha : (SoftOp.offer worker o).Allowed c) (hanswer : c.Answers worker o true)
    (hs : c.world.heap.timestamp o = .ok s) (hruns : SoftRuns xs c d) (hon : .disable ∉ xs)
    (hxs : ∀ space, .setUp space ∉ xs) (ha' : (SoftOp.offer worker' o').Allowed d)
    (hfree : d.world.heap.following o' = none) (heligible : d.Eligible o')
    (hs' : d.world.heap.timestamp o' = .ok s') (hle : s' ≤ s) : d.Answers worker' o' true := by
  have hripe := (hc.answers_true_iff ha).mp hanswer
  obtain ⟨r', j, hd, helapsed⟩ := hc.elapsed hruns
  have hj := helapsed.interval hxs
  subst hj
  obtain ⟨henabled, hnone⟩ := helapsed.enabled hon hripe.enabled
  refine (hd.answers_true_iff ha').mpr ⟨henabled, ?_, heligible, fun t ht => ?_, .inl hfree⟩
  · rw [helapsed.config]
    exact hripe.registers
  · rw [hs', Except.ok.injEq] at ht
    have hidle := hripe.idle s hs
    have hsnapshot := helapsed.snapshot hnone
    omega

/-- With no more headroom, what was accepted is accepted. -/
theorem accepts_tighter (hc : Recent c r i) {space space' : Occupancy} {d' : Cycle γ}
    {worker' : Option Nat} {s : Int}
    (hroom : space'.headroom c.processor.config.softBasis ≤
      space.headroom c.processor.config.softBasis)
    (hruns : SoftRuns (.setUp space :: xs) c d) (hxs : ∀ space, .setUp space ∉ xs)
    (hruns' : SoftRuns (.setUp space' :: ys) c d') (hys : ∀ space, .setUp space ∉ ys)
    (hsnapshot : d'.processor.snapshot = d.processor.snapshot)
    (hs : d.world.heap.timestamp o = .ok s) (hs' : d'.world.heap.timestamp o = .ok s)
    (ha : (SoftOp.offer worker o).Allowed d) (hanswer : d.Answers worker o true)
    (ha' : (SoftOp.offer worker' o).Allowed d') (hon : d'.processor.enabled = true)
    (hfree : d.world.heap.following o = none → d'.world.heap.following o = none) :
    d'.Answers worker' o true := by
  obtain ⟨r₁, hd, helapsed⟩ := hc.elapsed_of_setUp hruns hxs
  obtain ⟨r₂, hd', helapsed'⟩ := hc.elapsed_of_setUp hruns' hys
  have hripe := (hd.answers_true_iff ha).mp hanswer
  have hheld : c.world.heap.holds o = true := by
    rw [← helapsed.held]
    exact Heap.holds_of_timestamp hs
  refine (hd'.answers_true_iff ha').mpr ⟨hon, ?_, ?_, fun t ht => ?_, ?_⟩
  · rw [helapsed'.config, ← helapsed.config]
    exact hripe.registers
  · exact (helapsed'.eligible o hheld).mpr ((helapsed.eligible o hheld).mp hripe.eligible)
  · rw [hs', Except.ok.injEq] at ht
    have hidle := hripe.idle s hs
    have hinterval := Config.softInterval_mono hc.rate hroom
    omega
  · rw [helapsed'.config, ← helapsed.config]
    exact hripe.free.imp hfree id

/-- A state that satisfies the invariant respects recency. -/
theorem respectsRecency (hc : Recent c r i) : c.RespectsRecency where
  returns x ha := by
    obtain ⟨answer, d, _, _, hrun, -⟩ := hc.run_ok ha
    exact ⟨answer, d, hrun⟩
  clock xs d hruns := by
    obtain ⟨_, _, -, helapsed⟩ := hc.elapsed hruns
    exact helapsed.clock
  stamps o s hs := hc.elapsed_ok hs
  interval := ⟨i, by rw [hc.policy]; rfl, hc.interval⟩
  fresh _ _ _ _ _ := hc.declines_fresh
  older _ _ _ _ _ _ _ _ := hc.accepts_older
  tighter _ _ _ _ _ _ _ _ _ _ := hc.accepts_tighter

end Recent

/-- A new processor over a table without stamps. -/
theorem recent_of_create {config : Config} (hvalid : config.validate = .ok ()) {scope : Scope}
    {clock : SoftClock} (hclock : IsStamp clock.millis)
    (hcreate : Processor.create config scope clock = .ok c.processor)
    (hsane : c.world.heap.Sane) (hunlinked : ∀ o, c.world.heap.following o = none)
    (hpending : c.world.heap.pendingHead = none)
    (hunstamped : ∀ o t, c.world.heap.traits o = some t → t.timestamp = 0) :
    Recent c Roster.none 0 := by
  have hs := sound_of_create hvalid hclock hcreate hsane hunlinked hpending
  obtain ⟨p, hcreate', hconfig, -, -, -, -, hpclock, -, -, hpolicy, hchosen⟩ :=
    Processor.create_ok hvalid scope clock
  rw [hcreate] at hcreate'
  cases hcreate'
  obtain ⟨-, -, -, hrate, -⟩ := (Config.validate_eq_ok_iff config).mp hvalid
  refine ⟨hs, fun o t ht => ?_, by rw [hconfig]; exact hrate, by rw [hpolicy, hconfig]; rfl,
    hchosen, by decide⟩
  rw [hunstamped o t ht, hpclock]
  exact hclock.1

/-- From a new processor with a valid configuration and any oracle, over a table without
stamps and lists, every run respects recency.  The clock never goes back, stamps stay
between zero and the clock, no interval is negative and no age overflows.  A soft reference
that was stamped when discovery was enabled, or later, is declined; and one that is
accepted would be accepted at every greater age and with any less headroom. -/
theorem recency_respected {config : Config} (hvalid : config.validate = .ok ()) (scope : Scope)
    {clock : SoftClock} (hclock : IsStamp clock.millis) :
    ∃ p, Processor.create config scope clock = .ok p ∧
      ∀ (alive : Option (Handle → Bool)) (c : Cycle γ),
        c.processor = { p with knownAlive := alive } → c.world.heap.Sane →
        (∀ o, c.world.heap.following o = none) → c.world.heap.pendingHead = none →
        (∀ o t, c.world.heap.traits o = some t → t.timestamp = 0) →
        ∀ xs d, SoftRuns xs c d → d.RespectsRecency := by
  obtain ⟨p, hcreate, -⟩ := Processor.create_ok hvalid scope clock
  refine ⟨p, hcreate, fun alive c hp hsane hunlinked hpending hunstamped xs d hruns => ?_⟩
  have hnew : Recent { c with processor := p } Roster.none 0 :=
    recent_of_create hvalid hclock hcreate hsane hunlinked hpending hunstamped
  have hc : Recent c Roster.none 0 := by
    obtain ⟨world, processor, times, sink⟩ := c
    cases hp
    exact ⟨hnew.of_setting rfl rfl rfl rfl hnew.clock rfl, hnew.stamps, hnew.rate, hnew.policy,
      hnew.chosen, hnew.interval⟩
  obtain ⟨r, i, hd, -⟩ := hc.elapsed hruns
  exact hd.respectsRecency

/-! ### A run -/

/-- Three soft references to one object, the second with a stamp. -/
def trioHeap (stamp : Int) : Heap where
  slots := (((Table.empty.push (.fresh none .young none)).push
    (.fresh (some .soft) .young (some (.low 0)))).push
    { Slot.fresh (some .soft) .young (some (.low 0)) with timestamp := stamp }).push
    (.fresh (some .soft) .young (some (.low 0)))
  pending := .null

/-- A new processor over such a table, with a clock that shows five seconds. -/
def trioStart : Cycle Marker where
  world := ⟨trioHeap 0, {}⟩
  processor := { pairStart.state.processor with clock := ⟨5000⟩, snapshot := 5000 }
  times := .create 1
  sink := {}

/-- The same processor after discovery was enabled. -/
def trioEnabled : Cycle Marker := { trioStart with processor := trioStart.processor.discovering }

/-- Enough free space to keep what was read in the last second for each megabyte. -/
def trioSpace (megabytes : Nat) : Occupancy := { max := megabytes * 0x100000 }

/-- The same cycle after a setup. -/
def trioReady (megabytes : Nat) : Cycle Marker :=
  { trioEnabled with
    processor := trioEnabled.processor.setupPolicy false (trioSpace megabytes) }

/-- The same cycle after the second reference was read. -/
def trioRead : Cycle Marker := { trioReady 1 with world := ⟨trioHeap 5000, {}⟩ }

/-- The trio of the example starts with a processor as it is created. -/
theorem trio_created :
    Processor.create pairConfig .wholeHeap ⟨5000⟩ = .ok trioStart.processor := rfl

/-- Its heap is in order. -/
theorem trio_sane : trioStart.world.heap.Sane := .of_slots (by decide) (by decide) (by decide)

/-- None of its references is listed. -/
theorem trio_unlinked (o : Handle) : trioStart.world.heap.following o = none :=
  Heap.forall_link (P := (· = none)) .discovered rfl (by decide)

/-- Discovery may be enabled in it. -/
theorem trio_enables : SoftOp.enable.Allowed trioStart ∧
    SoftOp.enable.run trioStart = .ok none trioEnabled := by
  have hs : Sound trioStart Roster.none [] :=
    sound_of_create rfl (by decide) trio_created trio_sane trio_unlinked (by decide)
  exact ⟨⟨rfl, hs.members_eq⟩, (bind_ok (hs.enable_ok rfl).1).trans rfl⟩

/-- The policy is set up and one of the references read. -/
theorem trio_reads : SoftRuns [.setUp (trioSpace 1), .access (.low 2)] trioEnabled trioRead :=
  .cons trivial (SoftOp.setting_ok _ trioEnabled)
    (.cons (show (trioHeap 0).holds (.low 2) = true by decide) rfl (.nil _))

/-- A reference that was not read for five seconds is accepted with four free megabytes, and
so it is with one, like every other such reference; the one that was just read is declined. -/
theorem recency_respected_trio : pairConfig.validate = .ok () ∧ IsStamp 5000 ∧
    SoftRuns [.enable, .setUp (trioSpace 1), .access (.low 2)] trioStart trioRead ∧
    trioRead.RespectsRecency ∧ (trioReady 4).Answers none (.low 1) true ∧
    trioRead.Answers none (.low 1) true ∧ trioRead.Answers none (.low 3) true ∧
    trioRead.Answers none (.low 2) false := by
  have hvalid : pairConfig.validate = .ok () := rfl
  have hclock : IsStamp (SoftClock.mk 5000).millis := by decide
  obtain ⟨p, hcreate, hall⟩ := recency_respected (γ := Marker) hvalid .wholeHeap hclock
  rw [trio_created] at hcreate
  cases hcreate
  have hrespects : ∀ xs d, SoftRuns xs trioStart d → d.RespectsRecency :=
    hall none trioStart rfl trio_sane trio_unlinked (by decide) fun o t ht =>
      Heap.forall_traits (P := fun t => t.timestamp = 0) (by decide) ht
  obtain ⟨hallowed, henable⟩ := trio_enables
  have hruns : SoftRuns [.enable, .setUp (trioSpace 1), .access (.low 2)] trioStart trioRead :=
    .cons hallowed henable trio_reads
  have hroomy : (trioReady 4).Answers none (.low 1) true := by
    obtain ⟨answer, d, hrun, hanswer⟩ := exists_of_run (x := (SoftOp.offer none (.low 1)).run)
      (s := trioReady 4) (P := fun answer _ => answer = some true) (by decide +kernel)
    exact ⟨d, by rw [hrun, of_decide_eq_true hanswer]⟩
  have hroom : (trioSpace 1).headroom .maxHeap ≤ (trioSpace 4).headroom .maxHeap := by
    simp [Occupancy.headroom, trioSpace]
  have htight : trioRead.Answers none (.low 1) true :=
    (hrespects [.enable] trioEnabled (.cons hallowed henable (.nil _))).tighter
      (trioSpace 4) (trioSpace 1) [] [.access (.low 2)] (trioReady 4) trioRead none none (.low 1) 0
      hroom (.cons trivial (SoftOp.setting_ok _ trioEnabled) (.nil _)) (by simp) trio_reads
      (by simp) (by decide) rfl rfl ⟨by decide, by decide⟩ hroomy ⟨by decide, by decide⟩ rfl
      fun _ => by decide
  have hread := hrespects _ trioRead hruns
  exact ⟨hvalid, hclock, hruns, hread, hroomy, htight,
    hread.older [] trioRead none none (.low 1) (.low 3) 0 0 ⟨by decide, by decide⟩ htight rfl
      (.nil _) (by simp) (by simp) ⟨by decide, by decide⟩ (by decide) ⟨rfl, rfl⟩ rfl (by decide),
    (hrespects [] trioStart (.nil _)).fresh _ trioRead none (.low 2) 5000 hruns (by simp)
      ⟨by decide, by decide⟩ rfl (by decide)⟩

end Referents
