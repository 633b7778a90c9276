import Referents.Proofs.Frames
import Referents.Proofs.Operations

/-!
# Nested narrowings of the degree

The degree is narrowed for the time of a phase, and may be narrowed again while
that lasts; what was narrowed last is given up first.  Each narrowing knows the
degree from before it, so giving it up restores that degree, whether or not it
had any effect.

* `Pool.Made` — the pools there are have an active worker.
* `Nested` — the degrees that the live narrowings stand between, from the
  innermost to the outermost.
* `Adjusted.nested` — what a processor is, by induction on how it was adjusted.
* `adjusters_nest` — the bounds, and the restored degrees; a cycle ends with
  the degree that it began with.
-/

namespace Referents

/-- A pool that was created, and on which workers were activated and tasks run. -/
inductive Pool.Made : Pool → Prop
  | create {name : String} {n : Nat} {p : Pool} : Pool.create name n = .ok p → Made p
  | setActive {p : Pool} (n : Nat) : Made p → Made (p.setActive n)
  | count {p : Pool} (n : Nat) : Made p → Made (p.count n)

/-- Some worker is active. -/
theorem Pool.Made.active_pos {p : Pool} (hp : p.Made) : 1 ≤ p.activeWorkers := by
  induction hp with
  | create hcreate =>
      unfold Pool.create at hcreate
      split at hcreate
      · cases hcreate
      · cases hcreate
        exact Nat.one_le_iff_ne_zero.mpr ‹_›
  | setActive n _ _ => exact Nat.le_max_left _ _
  | count n _ ih => exact ih

/-- A narrowed degree that has not been given up yet. -/
structure Adjuster where
  /-- The processor before. -/
  outer : Processor
  pool : Option Pool
  narrowed : Narrowed

namespace Adjuster

/-- Narrows the degree of a processor for a phase. -/
def make (p : Processor) (phase : Phase) (refs : Nat) (pool : Option Pool) :
    Except Fault Adjuster := do
  let narrowed ← p.narrow phase refs (pool.map Pool.activeWorkers)
  return ⟨p, pool, narrowed⟩

theorem outer_make {p : Processor} {phase : Phase} {refs : Nat} {pool : Option Pool}
    {a : Adjuster} (hmake : make p phase refs pool = .ok a) : a.outer = p := by
  obtain ⟨n, -, ha⟩ := exists_of_except_bind_ok hmake
  cases ha
  rfl

/-- Gives the narrowed degree up. -/
def drop (a : Adjuster) (p : Processor) : Except Fault Processor := a.narrowed.restore p

/-- How many workers there are; without a pool there is one. -/
def workers (a : Adjuster) : Nat := (a.pool.map Pool.activeWorkers).getD 1

end Adjuster

/-- The processor `start` was adjusted and became `p`, with the adjusters `live`, the
innermost first, that were not given up yet. -/
inductive Adjusted (start : Processor) : List Adjuster → Processor → Prop
  | start : Adjusted start [] start
  | make {live : List Adjuster} {p : Processor} {phase : Phase} {refs : Nat}
      {pool : Option Pool} {a : Adjuster} :
      Adjusted start live p → refs < 2 ^ 32 → (∀ w, pool = some w → w.Made) →
      Adjuster.make p phase refs pool = .ok a → Adjusted start (a :: live) a.narrowed.processor
  /-- Whatever else is done leaves the configuration and the degree. -/
  | work {live : List Adjuster} {p p' : Processor} :
      Adjusted start live p → p'.config = p.config → p'.degree = p.degree → Adjusted start live p'
  | drop {live : List Adjuster} {a : Adjuster} {p p' : Processor} :
      Adjusted start (a :: live) p → a.drop p = .ok p' → Adjusted start live p'

/-- The degree `n` stands below those from before the adjusters, the last of
which is `d`. -/
def Nested (d : Nat) : List Adjuster → Nat → Prop
  | [], n => n = d
  | a :: live, n => a.narrowed.saved = a.outer.degree ∧ 1 ≤ n ∧ n ≤ a.outer.degree ∧
      (a.outer.isMulti = true → n ≤ a.workers) ∧ Nested d live a.outer.degree

namespace Nested

variable {d n : Nat} {live : List Adjuster} {a : Adjuster}

theorem bounds (hn : Nested d live n) (hd : 1 ≤ d) : 1 ≤ n ∧ n ≤ d := by
  induction live generalizing n with
  | nil =>
      have heq : n = d := hn
      omega
  | cons a live ih =>
      obtain ⟨-, hpos, hle, -, hrest⟩ := hn
      have hbelow := (ih hrest).2
      omega

/-- The degree stands below that from before any of the adjusters. -/
theorem of_mem (hn : Nested d live n) (hd : 1 ≤ d) (ha : a ∈ live) :
    n ≤ a.outer.degree ∧ a.outer.degree ≤ d ∧ (a.outer.isMulti = true → n ≤ a.workers) := by
  induction live generalizing n with
  | nil => cases ha
  | cons b live ih =>
      obtain ⟨-, -, hle, hworkers, hrest⟩ := hn
      rcases List.mem_cons.mp ha with rfl | ha
      · exact ⟨hle, (hrest.bounds hd).2, hworkers⟩
      · obtain ⟨hbelow, houter, hmulti⟩ := ih hrest ha
        exact ⟨Nat.le_trans hle hbelow, houter, fun h => Nat.le_trans hle (hmulti h)⟩

end Nested

namespace Adjusted

variable {start p : Processor} {live : List Adjuster} {a : Adjuster}

/-- Narrowing a degree returns, and puts another degree below it. -/
theorem make_ok {phase : Phase} {refs : Nat} {pool : Option Pool} (hpos : 1 ≤ p.degree)
    (hdegree : p.degree ≤ p.queues) (hrefs : refs < 2 ^ 32) (hpool : ∀ w, pool = some w → w.Made) :
    ∃ a, Adjuster.make p phase refs pool = .ok a ∧ a.outer = p ∧
      a.narrowed.saved = p.degree ∧ a.narrowed.processor.config = p.config ∧
      1 ≤ a.narrowed.processor.degree ∧ a.narrowed.processor.degree ≤ p.degree ∧
      (p.isMulti = true → a.narrowed.processor.degree ≤ a.workers) := by
  have hlt : refs + 1 < 2 ^ 64 := by omega
  obtain ⟨n, hrun, hsaved, hsetup, -, hone, -⟩ :=
    Processor.narrow_ok hpos hdegree hlt phase (pool.map Pool.activeWorkers)
  have hactive : 1 ≤ (pool.map Pool.activeWorkers).getD 1 := by
    cases pool with
    | none => exact Nat.le_refl 1
    | some w => exact (hpool w rfl).active_pos
  obtain ⟨hle, hworkers⟩ := Processor.narrow_le hpos hactive hrun
  exact ⟨⟨p, pool, n⟩, except_bind_ok hrun, rfl, hsaved, Processor.config_eq_of_setup hsetup, hone,
    hle, hworkers⟩

/-- Giving up a narrowed degree returns. -/
theorem drop_ok (hsaved : a.narrowed.saved ≤ p.queues) :
    a.drop p = .ok { p with degree := a.narrowed.saved, turn := 0 } :=
  Processor.setDegree_ok hsaved

/-- However a processor was adjusted, its degree is nested. -/
theorem nested (hp : Adjusted start live p) (hpos : 1 ≤ start.degree)
    (hstart : start.degree ≤ start.queues) :
    p.config = start.config ∧ Nested start.degree live p.degree := by
  induction hp with
  | start => exact ⟨rfl, rfl⟩
  | make _ hrefs hpool hmake ih =>
      obtain ⟨hconfig, hn⟩ := ih
      obtain ⟨hone, hle⟩ := hn.bounds hpos
      obtain ⟨a, hmake', houter, hsaved, hconfig', hone', hle', hworkers⟩ :=
        make_ok hone (by rw [Processor.queues_congr hconfig]; omega) hrefs hpool
      rw [hmake] at hmake'
      cases hmake'
      subst houter
      exact ⟨hconfig'.trans hconfig, hsaved, hone', hle', hworkers, hn⟩
  | work _ hconfig hdegree ih => exact ⟨hconfig.trans ih.1, by rw [hdegree]; exact ih.2⟩
  | drop _ hdrop ih =>
      obtain ⟨hconfig, hsaved, -, -, -, hn⟩ := ih
      obtain ⟨-, rfl⟩ := Processor.setDegree_eq hdrop
      refine ⟨hconfig, ?_⟩
      show Nested start.degree _ _
      rw [hsaved]
      exact hn

end Adjusted

/-- A processor that was made from a valid configuration has some degree, and is
adjusted in any nested way.  While an adjuster is live the degree is at least
one and no more than before it; where several workers could share the queues it
is no more than the active workers, and one without a pool.  All adjusters can
be made, and the last one can be given up: the degree is what it was before it.

So a cycle ends with the degree that it began with, whatever phases it skips: however
it ends, over any collector, lists and pool, and it returns in particular wherever it
may be asked for. -/
theorem adjusters_nest {γ : Type} {config : Config} (hvalid : config.validate = .ok ())
    (scope : Scope) {clock : SoftClock} (hclock : IsStamp clock.millis) :
    ∃ p, Processor.create config scope clock = .ok p ∧
      (∀ d, 1 ≤ d → d ≤ p.queues → ∃ start, p.setDegree d = .ok start ∧
        ∀ live q, Adjusted start live q →
          (∀ a ∈ live, 1 ≤ q.degree ∧ q.degree ≤ a.outer.degree ∧ a.outer.degree ≤ q.queues ∧
            (a.outer.isMulti = true → q.degree ≤ a.workers) ∧
            (a.outer.isMulti = true → a.pool = none → q.degree = 1)) ∧
          (∀ phase refs pool, refs < 2 ^ 32 → (∀ w, pool = some w → w.Made) →
            ∃ a, Adjuster.make q phase refs pool = .ok a ∧ a.outer = q) ∧
          (∀ a rest, live = a :: rest → ∃ q', a.drop q = .ok q' ∧ q'.degree = a.outer.degree) ∧
          (live = [] → q.degree = d)) ∧
      (∀ (t : Threaded (Cycle γ)) hooks readings pooled,
        t.state.processor.degree ≤ t.state.processor.queues →
          (endState (Pass.process hooks readings pooled) t).state.processor.degree =
            t.state.processor.degree) ∧
      ∀ t : Threaded (Cycle γ), t.state.processor = p → t.state.world.heap.Sane →
        (∀ o, t.state.world.heap.following o = none) →
        t.state.world.heap.pendingHead = none →
        ∀ (ops : List (Op γ)) (u : Threaded (Cycle γ)), Runs ops t u →
          ∀ hooks readings pool, (Op.process hooks readings pool).Allowed u.state →
            ∃ v, (Op.process hooks readings pool).run u = .ok () v ∧
              v.state.processor.degree = u.state.processor.degree := by
  obtain ⟨p, hcreate, -⟩ := Processor.create_ok hvalid scope clock
  refine ⟨p, hcreate, ?_, fun t hooks readings pooled hle =>
    congrArg Prod.snd (Pass.leaves_process hooks readings pooled t hle), ?_⟩
  · intro d hpos hd
    refine ⟨_, Processor.setDegree_ok hd, ?_⟩
    intro live q hq
    obtain ⟨hconfig, hn⟩ := hq.nested hpos hd
    obtain ⟨hone, hle⟩ := hn.bounds hpos
    have hqueues : q.queues = p.queues := Processor.queues_congr hconfig
    refine ⟨?_, ?_, ?_, ?_⟩
    · intro a ha
      obtain ⟨hbelow, houter, hworkers⟩ := hn.of_mem hpos ha
      refine ⟨hone, hbelow, ?_, hworkers, ?_⟩
      · rw [hqueues]
        exact Nat.le_trans houter hd
      · intro hmulti hpool
        have hsolo := hworkers hmulti
        rw [Adjuster.workers, hpool] at hsolo
        exact Nat.le_antisymm hsolo hone
    · intro phase refs pool hrefs hpool
      obtain ⟨a, hmake, houter, -⟩ := Adjusted.make_ok hone
        (by rw [hqueues]; exact Nat.le_trans hle hd) hrefs hpool
      exact ⟨a, hmake, houter⟩
    · rintro a rest rfl
      obtain ⟨hsaved, -, -, -, hrest⟩ := hn
      have houter := (hrest.bounds hpos).2
      refine ⟨_, Adjusted.drop_ok ?_, hsaved⟩
      rw [hsaved, hqueues]
      exact Nat.le_trans houter hd
    · rintro rfl
      exact hn
  · intro t hp hsane hunlinked hpending ops u hruns hooks readings pool ha
    rw [← hp] at hcreate
    obtain ⟨r, ps, hs⟩ :=
      hruns.sound (sound_of_create hvalid hclock hcreate hsane hunlinked hpending)
    obtain ⟨v, J, pub, hrun, hworked⟩ := Op.process_ok hs ha
    exact ⟨v, hrun, hworked.degree⟩

/-- A configuration with four queues, where every reference justifies one more thread. -/
def quadConfig : Config :=
  { processingDegree := 4, concurrentDiscovery := true, refsPerThread := 1, hostProcessors := 8 }

/-- A new processor over the table of `pairStart`. -/
def quadStart : Threaded (Cycle Marker) where
  state := {
    pairStart.state with
    processor := {
      pairStart.state.processor with
      config := quadConfig, degree := 4, lists := .replicate (Array.replicate 4 .empty) } }

/-- The weak reference is discovered. -/
def quadOps : List (Op Marker) := [.enable, .discover none (.low 1) .weak]

/-- A pool with as many workers as queues. -/
def quadPool : Pool := { name := "quad", maxWorkers := 4, activeWorkers := 4 }

theorem quad_created :
    Processor.create quadConfig .wholeHeap ⟨0⟩ = .ok quadStart.state.processor := rfl

/-- A cycle over this reference runs a single task, of two units: its first phase is
narrowed from four queues to two. -/
theorem quad_runs : ∃ u v, Runs quadOps quadStart u ∧
    (Op.process Marker.hooks {} (some quadPool)).Allowed u.state ∧
    u.state.processor.degree = 4 ∧
    (Op.process Marker.hooks {} (some quadPool)).run u = .ok () v ∧
    v.pool.map Pool.counts = some { runs := 1, units := 2 } := by
  obtain ⟨u, hu⟩ : ∃ u, u = (Op.discover none (.low 1) .weak).after
      (Op.enable.after quadStart) := ⟨_, rfl⟩
  have hs₀ : Sound quadStart.state Roster.none [] :=
    sound_of_create rfl (by decide) quad_created pair_sane pair_unlinked (by decide)
  have hruns : Runs quadOps quadStart u := by
    rw [hu]
    refine .cons ⟨rfl, fun k q => ?_⟩ (Op.run_of_returns (by decide +kernel)) (.cons
      ⟨by decide +kernel, by decide +kernel, by decide +kernel⟩
      (Op.run_of_returns (by decide +kernel)) (.nil _))
    rw [hs₀.members_eq]
    rfl
  obtain ⟨r, ps, hs⟩ := hruns.sound hs₀
  have hmarking : Marker.Marking u.state.world :=
    hs.marking_of_unmarked (by rw [hu]; decide +kernel) (by rw [hu]; decide +kernel)
  have hroom : u.state.times.HasRoom u.state.processor.queues := by
    rw [hu]
    decide +kernel
  have hconcurrent : u.state.processor.config.concurrentDiscovery = true := by
    rw [hu]
    decide +kernel
  have hreturns : (Op.process Marker.hooks {} (some quadPool)).returns u = true := by
    rw [hu]
    decide +kernel
  have hcounts : ((Op.process Marker.hooks {} (some quadPool)).after u).pool.map Pool.counts =
      some { runs := 1, units := 2 } := by
    rw [hu]
    decide +kernel
  exact ⟨u, _, hruns, ⟨⟨_, Marker.unobtrusive _ _, hmarking, rfl⟩,
    fun hserial => (by rw [hconcurrent] at hserial; cases hserial), by decide, by decide, hroom⟩,
    by rw [hu]; decide +kernel, Op.run_of_returns hreturns, hcounts⟩

/-- The degree goes from four to three, to one, and back.  A cycle with a reference ends
with degree four, although its first phase had two. -/
theorem adjusters_nest_quad : quadConfig.validate = .ok () ∧ IsStamp 0 ∧
    ∃ start a b, Pool.Made quadPool ∧ quadStart.state.processor.setDegree 4 = .ok start ∧
      Adjuster.make start .softWeakFinal 2 (some quadPool) = .ok a ∧
      Adjuster.make a.narrowed.processor .phantom 0 (some quadPool) = .ok b ∧
      a.narrowed.processor.degree = 3 ∧ b.narrowed.processor.degree = 1 ∧
      (∃ q q', b.drop b.narrowed.processor = .ok q ∧ q.degree = 3 ∧
        a.drop q = .ok q' ∧ q'.degree = 4) ∧
      ∃ u v, Runs quadOps quadStart u ∧
        (Op.process Marker.hooks {} (some quadPool)).run u = .ok () v ∧
        v.pool.map Pool.counts = some { runs := 1, units := 2 } ∧
        v.state.processor.degree = 4 := by
  have hvalid : quadConfig.validate = .ok () := rfl
  have hclock : IsStamp (SoftClock.mk 0).millis := by decide
  have hpool : quadPool.Made := .create (rfl : Pool.create "quad" 4 = .ok quadPool)
  have hmade : ∀ w, some quadPool = some w → w.Made := by
    rintro w ⟨rfl⟩
    exact hpool
  obtain ⟨p, hcreate, hadjust, -, hprocess⟩ :=
    adjusters_nest (γ := Marker) hvalid .wholeHeap hclock
  obtain rfl : quadStart.state.processor = p := Except.ok.inj hcreate
  obtain ⟨start, hstart, hnest⟩ := hadjust 4 (by decide) (by decide)
  obtain ⟨a, ha, hathree⟩ : ∃ a,
      Adjuster.make start .softWeakFinal 2 (some quadPool) = .ok a ∧
      a.narrowed.processor.degree = 3 := by
    cases hstart
    exact ⟨_, rfl, rfl⟩
  obtain ⟨b, hb, hbone⟩ : ∃ b,
      Adjuster.make a.narrowed.processor .phantom 0 (some quadPool) = .ok b ∧
      b.narrowed.processor.degree = 1 := by
    cases hstart
    cases ha
    exact ⟨_, rfl, rfl⟩
  have houter : Adjusted start [a] a.narrowed.processor :=
    .make .start (by decide) hmade ha
  have hinner : Adjusted start [b, a] b.narrowed.processor :=
    .make houter (by decide) hmade hb
  obtain ⟨-, -, hdrop, -⟩ := hnest _ _ hinner
  obtain ⟨q, hq, hqdegree⟩ := hdrop b [a] rfl
  obtain ⟨-, -, hdrop', -⟩ := hnest _ _ (hinner.drop hq)
  obtain ⟨q', hq', hqdegree'⟩ := hdrop' a [] rfl
  obtain ⟨u, v, hruns, hallowed, hfour, hrun, hcounts⟩ := quad_runs
  obtain ⟨v', hrun', hdegree⟩ := hprocess quadStart rfl pair_sane pair_unlinked (by decide)
    quadOps u hruns Marker.hooks {} (some quadPool) hallowed
  rw [hrun] at hrun'
  cases hrun'
  rw [Adjuster.outer_make hb, hathree] at hqdegree
  rw [Adjuster.outer_make ha] at hqdegree'
  refine ⟨hvalid, hclock, start, a, b, hpool, hstart, ha, hb, hathree, hbone,
    ⟨q, q', hq, hqdegree, hq', ?_⟩, u, v, hruns, hrun, hcounts, hdegree.trans hfour⟩
  cases hstart
  exact hqdegree'

end Referents
