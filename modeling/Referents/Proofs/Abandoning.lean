import Referents.Proofs.Operations

/-!
# Giving up a discovery

A discovery that is given up leaves no trace.  Between its start and its end
references may be offered, by workers or in turn, and lists may be balanced and
precleaned; all of this touches nothing but the links of the references that are
listed at the moment, so taking the lists apart restores every object.

* `Trial`, `Trial.run` — the steps of such a discovery.
* `Tried` — what holds after some of them: the links of listed references apart,
  the heap is the one from the start.
* `Tried.run_ok` — one step keeps that; `Tried.runAll_ok` — so do any number.
* `Tried.abandon_ok` — taking the lists apart leads back to the start.
* `abandon_undoes` — the whole round trip, and whoever was accepted on the way
  is accepted again afterwards.
-/

namespace Referents

variable {γ : Type}

/-- The collector tells what is alive and leaves the heap as it is. -/
def Hooks.Observing (hooks : Hooks γ) : Prop :=
  ∀ (w : World γ) (o : Handle), w.heap.holds o = true →
    ∃ answer collector, hooks.isAlive o w = .ok answer { w with collector }

/-- An observing collector answers and changes no object. -/
theorem Hooks.Observing.answering {hooks : Hooks γ} (hh : hooks.Observing) (h : Heap) :
    hooks.Answering fun _ w => h.SameObjects w.heap where
  relink hI hsame := hI.trans hsame
  isAlive hI ho := by
    obtain ⟨answer, collector, hask⟩ := hh _ _ ho
    exact ⟨answer, _, hask, .refl _, hI⟩

/-- A step of a discovery. -/
inductive Trial (γ : Type) where
  /-- A reference is offered under its kind. -/
  | offer (worker : Option Nat) (o : Handle) (k : RefKind)
  | setMulti (multi : Bool)
  | setDegree (n : Nat)
  | balanceAll
  | preclean (hooks : Hooks γ) (check : YieldCheck γ) (readings : Readings)

namespace Trial

/-- Runs a step, and returns the reference that was accepted, if one was. -/
def run : Trial γ → Step γ (List Handle)
  | .offer worker o k => do
      let accepted ← Step.discover worker o (some k)
      return if accepted then [o] else []
  | .setMulti multi => do
      Step.updateProcessor fun p => .ok { p with multiDiscovery := multi }
      return []
  | .setDegree n => do
      Step.updateProcessor fun p => p.setDegree n
      return []
  | .balanceAll => do
      Step.withHeap Processor.balanceAll
      return []
  | .preclean hooks check readings => do
      discard (Step.preclean hooks check readings)
      return []

/-- Runs several steps, and returns the references that were accepted. -/
def runAll : List (Trial γ) → Step γ (List Handle)
  | [] => pure []
  | x :: rest => do
      let taken ← x.run
      return taken ++ (← runAll rest)

/-- What may be tried where the references `ps` are pending. -/
def Allowed (c : Cycle γ) (ps : List Handle) : Trial γ → Prop
  | .offer worker o k => c.world.heap.kindOf o = some k ∧ o ∉ ps ∧
      worker.getD 0 < c.processor.queues
  | .setDegree n => 1 ≤ n ∧ n ≤ c.processor.queues
  | .preclean hooks _ _ => hooks.Observing
  | _ => True

end Trial

/-- No reference is listed, and lists can be filled. -/
structure Blank (c : Cycle γ) (ps : List Handle) : Prop where
  registered : Registered c.processor c.world.heap Roster.none ps
  targets : c.world.heap.TargetsHeld
  timely : c.processor.Timely c.world.heap
  positive : 1 ≤ c.processor.degree
  degree : c.processor.degree ≤ c.processor.queues
  turn : c.processor.turn < c.processor.degree

/-- The reference would be accepted. -/
structure Acceptable (c : Cycle γ) (o : Handle) : Prop where
  judged : ∃ k, c.world.heap.kindOf o = some k ∧
    c.processor.declines c.world.heap o k = .ok false
  free : c.world.heap.following o = none ∨
    c.processor.config.rediscovery = .treatAsDiscovered

/-- Since the cycle `c₀` the references `taken` were accepted; those in the roster
`r` are listed now, and nothing but their links has changed. -/
structure Tried (c₀ : Cycle γ) (ps taken : List Handle) (r : Roster) (c : Cycle γ) : Prop where
  registered : Registered c.processor c.world.heap r ps
  relinks : c₀.world.heap.Relinks (fun o => ∃ k, r.lists k o) c.world.heap
  free : ∀ k o, r.lists k o → o ∈ taken ∧ c₀.world.heap.following o = none
  acceptable : ∀ o ∈ taken, Acceptable c₀ o
  judges : c₀.processor.JudgesLike c.processor
  config : c.processor.config = c₀.processor.config
  positive : 1 ≤ c.processor.degree
  degree : c.processor.degree ≤ c.processor.queues
  turn : c.processor.turn < c.processor.degree

namespace Tried

variable {c₀ c c' : Cycle γ} {ps taken more : List Handle} {r r' : Roster} {o : Handle}
variable {k : RefKind}

/-- At the start nothing was accepted. -/
theorem start (hc : Blank c ps) : Tried c ps [] Roster.none c where
  registered := hc.registered
  relinks := .refl _ _
  free _ _ := fun ⟨_, ho⟩ => nomatch ho
  acceptable _ ho := nomatch ho
  judges := .refl _
  config := rfl
  positive := hc.positive
  degree := hc.degree
  turn := hc.turn

/-- Trials leave the number of queues. -/
theorem queues_eq (ht : Tried c₀ ps taken r c) : c.processor.queues = c₀.processor.queues :=
  Processor.queues_congr ht.config

/-- Trials leave the kinds of references. -/
theorem kindOf_eq (ht : Tried c₀ ps taken r c) : c.world.heap.kindOf = c₀.world.heap.kindOf :=
  Heap.kindOf_congr ht.relinks.objects.traits

/-- Who is not listed links to what it linked to at the start. -/
theorem following_eq (ht : Tried c₀ ps taken r c) (ho : ∀ k, ¬ r.lists k o) :
    c.world.heap.following o = c₀.world.heap.following o :=
  ht.relinks.agreesOff.following o fun ⟨k, hl⟩ => ho k hl

/-- The ages of soft references can still be computed after trials. -/
theorem timely (ht : Tried c₀ ps taken r c) (h₀ : c₀.processor.Timely c₀.world.heap) :
    c.processor.Timely c.world.heap := by
  intro o t hto
  rw [ht.relinks.objects.traits] at hto
  rw [ht.judges.snapshot]
  exact h₀ o t hto

/-- A reference is declined now if it was at the start. -/
theorem declines_eq (ht : Tried c₀ ps taken r c) (ho : c₀.world.heap.holds o = true)
    (k : RefKind) :
    c.processor.declines c.world.heap o k = c₀.processor.declines c₀.world.heap o k :=
  Processor.declines_eq ht.judges (Heap.survey_of_traits ht.relinks.objects.traits
    ht.relinks.target_eq ht.relinks.nextLink_eq) ho k

/-- Nothing changes but the settings for queues. -/
theorem of_settings (ht : Tried c₀ ps taken r c) {p : Processor}
    (hlists : p.lists = c.processor.lists) (hconfig : p.config = c.processor.config)
    (hjudges : c.processor.JudgesLike p) (hpos : 1 ≤ p.degree)
    (hdegree : p.degree ≤ c.processor.queues) (hturn : p.turn < p.degree) :
    Tried c₀ ps taken r { c with processor := p } where
  registered := ht.registered.of_lists hlists hconfig
  relinks := ht.relinks
  free := ht.free
  acceptable := ht.acceptable
  judges := ht.judges.trans hjudges
  config := hconfig.trans ht.config
  positive := hpos
  degree := by
    rw [Processor.queues, hconfig]
    exact hdegree
  turn := hturn

/-- Listed references are moved or dropped, and nothing else happens. -/
theorem of_moved (ht : Tried c₀ ps taken r c)
    (hr : Registered c'.processor c'.world.heap r' ps)
    (hrelinks : c.world.heap.Relinks (fun o => ∃ k, r.lists k o) c'.world.heap)
    (hlisted : ∀ k o, r'.lists k o → r.lists k o)
    (hgone : ∀ k o, r.lists k o → ¬ r'.lists k o → c'.world.heap.following o = none)
    (hsetup : c'.processor.setup = c.processor.setup)
    (hdegree : c'.processor.degree = c.processor.degree)
    (hturn : c'.processor.turn = c.processor.turn) : Tried c₀ ps taken r' c' where
  registered := hr
  relinks := by
    have hall := ht.relinks.trans hrelinks
    refine ⟨hall.objects, hall.pending, fun a ha => ?_⟩
    by_cases hl : a.field = .discovered ∧ ∃ k, r.lists k a.obj
    · obtain ⟨hfield, k, hl⟩ := hl
      have hlink := hgone k a.obj hl fun hl' => ha hfield ⟨k, hl'⟩
      obtain ⟨o, f⟩ := a
      cases hfield
      exact hlink.trans (ht.free k o hl).2.symm
    · exact hall.link a fun hfield hl' => hl ⟨hfield, hl'⟩
  free k o ho := ht.free k o (hlisted k o ho)
  acceptable := ht.acceptable
  judges := ht.judges.trans (Processor.judgesLike_of_setup hsetup)
  config := (Processor.config_eq_of_setup hsetup).trans ht.config
  positive := by rw [hdegree]; exact ht.positive
  degree := by
    rw [hdegree, Processor.queues_eq_of_setup hsetup]
    exact ht.degree
  turn := by rw [hdegree, hturn]; exact ht.turn

/-- What is accepted was acceptable at the start, and what was acceptable is accepted unless it
has been before. -/
theorem acceptable_of_offer (ht : Tried c₀ ps taken r c) {worker : Option Nat}
    (hk : c₀.world.heap.kindOf o = some k) {offer : Processor.Offer}
    (hdiscover : c.processor.discover c.world.heap c.sink worker o (some k) = .ok offer) :
    (offer.accepted = true → Acceptable c₀ o) ∧
      (Acceptable c₀ o → o ∉ taken → offer.accepted = true) := by
  have ho₀ := Heap.holds_of_kindOf hk
  have ho : c.world.heap.holds o = true := Heap.holds_of_kindOf ((congrFun ht.kindOf_eq o).trans hk)
  have haccepted := Processor.accepted_iff ho hdiscover
  rw [ht.declines_eq ho₀, ht.config] at haccepted
  constructor
  · intro hyes
    obtain ⟨hjudged, hopen⟩ := haccepted.mp hyes
    refine ⟨⟨k, hk, hjudged⟩, hopen.imp_left fun hnone => ?_⟩
    rwa [← ht.following_eq fun k' => ht.registered.listing.not_listed hnone]
  · intro hable hnew
    obtain ⟨⟨k', hk₁, hjudged⟩, hopen⟩ := hable
    rw [hk] at hk₁
    cases hk₁
    refine haccepted.mpr ⟨hjudged, hopen.imp_left fun hnone => ?_⟩
    rw [ht.following_eq fun k' hl => hnew (ht.free k' o hl).1]
    exact hnone

/-- An offer returns; it is accepted if the reference was acceptable at the start
and has not been accepted since. -/
theorem offer_ok (ht : Tried c₀ ps taken r c) (h₀ : c₀.processor.Timely c₀.world.heap)
    {worker : Option Nat} (hk : c₀.world.heap.kindOf o = some k) (hps : o ∉ ps)
    (hworker : worker.getD 0 < c₀.processor.queues) :
    ∃ accepted c' r', (Step.discover worker o (some k) : Step γ Bool) c = .ok accepted c' ∧
      Tried c₀ ps (taken ++ if accepted then [o] else []) r' c' ∧
      (Acceptable c₀ o → o ∉ taken → accepted = true) := by
  have hk' : c.world.heap.kindOf o = some k := by rw [ht.kindOf_eq, hk]
  obtain ⟨offer, hdiscover, hoffered⟩ : ∃ offer,
      c.processor.discover c.world.heap c.sink worker o (some k) = .ok offer ∧
        c.processor.Offered c.world.heap r worker o k offer :=
    Processor.discover_ok ht.registered.listing (ht.timely h₀) hk'
      (Nat.lt_of_lt_of_le ht.positive ht.degree) ht.degree (lt_max_of_lt_left ht.turn)
      fun _ => by rw [ht.queues_eq]; exact hworker
  obtain ⟨hacceptable, hagain⟩ := ht.acceptable_of_offer hk hdiscover
  have htaken : ∀ x ∈ taken ++ (if offer.accepted then [o] else []), Acceptable c₀ x := by
    intro x hx
    rcases List.mem_append.mp hx with hx | hx
    · exact ht.acceptable x hx
    · split at hx
      · next hyes => exact List.mem_singleton.mp hx ▸ hacceptable hyes
      · cases hx
  -- where no list changed the cycle is as it was, whatever was answered
  have hsame : offer.processor = c.processor → offer.heap = c.world.heap →
      Tried c₀ ps (taken ++ if offer.accepted then [o] else []) r
        { c with processor := offer.processor, sink := offer.sink
                 world := { c.world with heap := offer.heap } } := by
    intro hp hh
    rw [hp, hh]
    exact ⟨ht.registered, ht.relinks,
      fun k' x hx => ⟨List.mem_append_left _ (ht.free k' x hx).1, (ht.free k' x hx).2⟩, htaken,
      ht.judges, ht.config, ht.positive, ht.degree, ht.turn⟩
  cases hoffered with
  | declined refused processor heap =>
      exact ⟨offer.accepted, _, r, Step.discover_ok hdiscover, hsame processor heap, hagain⟩
  | known answer linked active processor heap =>
      exact ⟨offer.accepted, _, r, Step.discover_ok hdiscover, hsame processor heap, hagain⟩
  | listed q queue yes active free listing relinks setup degree turned turn =>
      refine ⟨offer.accepted, _, r.set k q (o :: r k q), Step.discover_ok hdiscover, ?_, hagain⟩
      constructor
      case registered => exact ht.registered.push listing relinks hps
      case relinks =>
        refine (ht.relinks.mono fun x hx => ?_).trans (relinks.mono fun x hx => ?_)
        · exact hx.imp fun k' hl => Roster.lists_push.mpr (.inr hl)
        · exact ⟨k, Roster.lists_push.mpr (.inl ⟨rfl, hx⟩)⟩
      case free =>
        intro k' x hx
        rcases Roster.lists_push.mp hx with ⟨-, rfl⟩ | hx
        · refine ⟨List.mem_append_right taken (by simp [yes]), ?_⟩
          rwa [← ht.following_eq fun k' => ht.registered.listing.not_listed free]
        · exact ⟨List.mem_append_left _ (ht.free k' x hx).1, (ht.free k' x hx).2⟩
      case acceptable => exact htaken
      case judges => exact ht.judges.trans (Processor.judgesLike_of_setup setup)
      case config => exact (Processor.config_eq_of_setup setup).trans ht.config
      case positive =>
        rw [degree]
        exact ht.positive
      case degree =>
        rw [degree, Processor.queues_eq_of_setup setup]
        exact ht.degree
      case turn =>
        rw [degree]
        rwa [Nat.max_eq_left ht.positive] at turn

/-- Every step returns. -/
theorem run_ok (ht : Tried c₀ ps taken r c) (h₀ : Blank c₀ ps) {x : Trial γ}
    (hx : x.Allowed c₀ ps) : ∃ new c' r', x.run c = .ok new c' ∧
      Tried c₀ ps (taken ++ new) r' c' := by
  cases x with
  | offer worker o k =>
      obtain ⟨hk, hps, hworker⟩ := hx
      obtain ⟨accepted, c', r', hrun, ht', -⟩ := ht.offer_ok h₀.timely hk hps hworker
      exact ⟨_, c', r', (bind_ok hrun).trans rfl, ht'⟩
  | setMulti multi =>
      have hset : (Step.updateProcessor fun p => .ok { p with multiDiscovery := multi } :
          Step γ Unit) c =
          .ok () { c with processor := { c.processor with multiDiscovery := multi } } :=
        Step.updateProcessor_ok rfl
      refine ⟨[], _, r, (bind_ok hset).trans rfl, ?_⟩
      rw [List.append_nil]
      exact ht.of_settings rfl rfl ⟨rfl, rfl, rfl, rfl, rfl, rfl⟩ ht.positive ht.degree ht.turn
  | setDegree n =>
      obtain ⟨hpos, hle⟩ := hx
      rw [← ht.queues_eq] at hle
      refine ⟨[], _, r,
        (bind_ok (Step.updateProcessor_ok (Processor.setDegree_ok hle))).trans rfl, ?_⟩
      rw [List.append_nil]
      exact ht.of_settings rfl rfl ⟨rfl, rfl, rfl, rfl, rfl, rfl⟩ hpos hle hpos
  | balanceAll =>
      obtain ⟨p, g, sink, r', hbalance, hr', hsame, hrelinks, hsetup, hdegree, hturn⟩ :=
        Processor.balanceAll_ok ht.registered ht.positive ht.degree c.sink
      refine ⟨[], _, r', (bind_ok (Step.withHeap_ok hbalance)).trans rfl, ?_⟩
      rw [List.append_nil]
      exact ht.of_moved hr' hrelinks (fun k o => (hsame k o).mp)
        (fun k o ho hno => absurd ((hsame k o).mpr ho) hno) hsetup hdegree hturn
  | preclean hooks check readings =>
      have htargets : ∀ k o, r.lists k o → ∀ t, c.world.heap.target o = some t →
          c.world.heap.holds t = true := by
        intro k o _ t hto
        rw [ht.relinks.target_eq] at hto
        rw [ht.relinks.holds_eq]
        exact h₀.targets o t hto
      have hcheck : ∀ calls : List Call,
          check.Respects ((fun _ w => c.world.heap.SameObjects w.heap) calls) :=
        fun _ => ⟨fun hI => hI, fun hI => hI⟩
      obtain ⟨out, c', calls, r', hrun, hcleaning⟩ := Step.preclean_ok
        (hx.answering c.world.heap) hcheck readings ht.registered htargets ⟨rfl, rfl, rfl⟩
      obtain ⟨hrelinks, hgone⟩ := hcleaning.relinks hcleaning.inv
      refine ⟨[], c', r', (bind_ok (map_ok (fun _ => ()) hrun)).trans rfl, ?_⟩
      rw [List.append_nil]
      exact ht.of_moved hcleaning.registered hrelinks hcleaning.settles.listed hgone
        hcleaning.setup hcleaning.degree hcleaning.turn

/-- So does every sequence of steps. -/
theorem runAll_ok (ht : Tried c₀ ps taken r c) (h₀ : Blank c₀ ps) {trials : List (Trial γ)}
    (htrials : ∀ x ∈ trials, x.Allowed c₀ ps) : ∃ new c' r',
      Trial.runAll trials c = .ok new c' ∧ Tried c₀ ps (taken ++ new) r' c' := by
  induction trials generalizing taken r c with
  | nil => exact ⟨[], c, r, rfl, by rwa [List.append_nil]⟩
  | cons x rest ih =>
      obtain ⟨new, c₁, r₁, hrun, ht₁⟩ := ht.run_ok h₀ (htrials x List.mem_cons_self)
      obtain ⟨later, c₂, r₂, hrest, ht₂⟩ :=
        ih ht₁ fun y hy => htrials y (List.mem_cons_of_mem x hy)
      refine ⟨new ++ later, c₂, r₂, (bind_ok hrun).trans ((bind_ok hrest).trans rfl), ?_⟩
      rwa [← List.append_assoc]

/-- Giving up leads back to the start. -/
theorem abandon_ok (ht : Tried c₀ ps taken r c) :
    ∃ c', (Step.withHeap Processor.abandon : Step γ Unit) c = .ok () c' ∧
      Tried c₀ ps [] Roster.none c' ∧
      ∃ announced, (c'.processor, c'.sink) = c.processor.emptied.log announced
        (.discoveryAbandoned (Processor.listed r c.processor.queues).length) := by
  obtain ⟨announced, habandon⟩ := Processor.abandon_eq ht.registered c.sink
  obtain ⟨p, g, sink, habandon', hr, hrelinks, hgone, hsetup, hdegree, hturn⟩ :=
    Processor.abandon_ok ht.registered c.sink
  refine ⟨_, Step.withHeap_ok habandon', ?_, announced, ?_⟩
  · have hdone : Tried c₀ ps taken Roster.none { c with
        processor := p, sink := sink, world := { c.world with heap := g } } :=
      ht.of_moved hr hrelinks (fun k o ⟨_, ho⟩ => nomatch ho) (fun k o ho _ => hgone k o ho)
        hsetup hdegree hturn
    exact ⟨hdone.registered, hdone.relinks, fun k o ⟨_, ho⟩ => (nomatch ho),
      fun o ho => (nomatch ho), hdone.judges, hdone.config, hdone.positive, hdone.degree,
      hdone.turn⟩
  · rw [habandon'] at habandon
    cases habandon
    rfl

end Tried

/-- What a computation on a cycle returns. -/
def Step.returned {α : Type} (x : Step γ α) (c : Cycle γ) : Option α :=
  match x c with
  | .ok a _ => some a
  | .error _ _ => none

end Referents
