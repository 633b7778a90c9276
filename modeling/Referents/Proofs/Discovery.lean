import Referents.Discovery
import Referents.Proofs.Balance
import Referents.Proofs.Degree

/-!
# What comes of an offer

An offered reference is declined, or was on a list already, or is put at the
head of a list of its kind.  In the last case the roster grows by this one
reference, and nothing but its link changes.

* `Listing.push`, `Registered.push` — a reference that is in no place yet is put on a list.
* `Processor.Refuses`, `Processor.declines_iff` — why a reference is declined.
* `Heap.survey_congr`, `Processor.declines_eq` — whether a reference is declined depends
  neither on marks nor on lists.
* `Processor.route`, `Processor.turnAfter` — the queue for a reference, and the next turn.
* `Processor.Offered`, `Processor.discover_ok` — what comes of an offer.
* `Processor.enable_ok` — discovery starts where all lists are empty.
-/

namespace Referents

variable {p p' : Processor} {h g : Heap} {r : Roster} {ps : List Handle}
variable {o : Handle} {k : RefKind} {q : Nat} {l : DiscoveredList} {m : Nat → List Handle}

/-- An object that is on no list is put at the front of one. -/
theorem DiscoveredList.Lists.insert_ok {ms : List Handle} (hl : l.Lists h ms)
    (ho : h.holds o = true) (hno : o ∉ ms) :
    l.insert h o = .ok (l.pushHead o, h.write ⟨o, .discovered⟩ (some (l.head.getD o))) ∧
      (l.pushHead o).Lists (h.write ⟨o, .discovered⟩ (some (l.head.getD o))) (o :: ms) := by
  refine ⟨except_bind_ok (Heap.setDiscovered_ok ho), ?_⟩
  exact hl.prepend (show h.Linked (h.following o) [o] from ⟨rfl, trivial⟩)
    (by simpa using ⟨hno, hl.nodup⟩) (by simpa using ho) rfl rfl

/-- A new member at the head of one of the lists of a kind. -/
theorem Spread.push {lists : Array DiscoveredList} (hs : Spread h lists m) (hq : q < lists.size)
    (hg : h.Relinks (· = o) g) (hl : l.Lists g (o :: m q)) (hno : ∀ q', o ∉ m q') :
    Spread g (lists.setIfInBounds q l) (fun q' => if q' = q then o :: m q else m q') where
  listed q' l' hl' := by
    by_cases hqq : q' = q
    · subst hqq
      rw [Array.getElem?_setIfInBounds, if_pos rfl, if_pos hq] at hl'
      cases hl'
      simpa using hl
    · rw [Array.getElem?_setIfInBounds, if_neg fun e => hqq e.symm] at hl'
      rw [if_neg hqq]
      refine (hs.listed q' l' hl').congr (fun x hx => ?_) fun x _ => hg.agreesOff.holds
      exact hg.agreesOff.following x fun e => hno q' (e ▸ hx)
  beyond q' hq' := by
    rw [Array.size_setIfInBounds] at hq'
    rw [if_neg (by omega)]
    exact hs.beyond q' hq'
  apart q₁ q₂ x h₁ h₂ := by
    have hold : ∀ q', x ∈ (if q' = q then o :: m q else m q') → q' = q ∧ x = o ∨ x ∈ m q' := by
      intro q' hx
      split at hx
      · next hqq =>
          rcases List.mem_cons.mp hx with rfl | hx
          · exact .inl ⟨hqq, rfl⟩
          · exact .inr (hqq ▸ hx)
      · exact .inr hx
    rcases hold q₁ h₁ with ⟨hq₁, hx₁⟩ | hm₁
    · rcases hold q₂ h₂ with ⟨hq₂, -⟩ | hm₂
      · rw [hq₁, hq₂]
      · exact absurd hm₂ (hx₁ ▸ hno q₂)
    · rcases hold q₂ h₂ with ⟨-, hx₂⟩ | hm₂
      · exact absurd hm₁ (hx₂ ▸ hno q₁)
      · exact hs.apart q₁ q₂ x hm₁ hm₂

/-- After a push the roster has the new member, and those that it had. -/
theorem Roster.lists_push {k' : RefKind} {x : Handle} :
    (r.set k q (o :: r k q)).lists k' x ↔ k' = k ∧ x = o ∨ r.lists k' x := by
  constructor
  · intro hlists
    obtain ⟨q', hx⟩ := hlists
    by_cases hkq : k' = k ∧ q' = q
    · obtain ⟨rfl, rfl⟩ := hkq
      rw [Roster.set_self] at hx
      exact (List.mem_cons.mp hx).imp (fun e => ⟨rfl, e⟩) fun hx => ⟨q', hx⟩
    · rw [Roster.set_of_ne _ _ hkq] at hx
      exact .inr ⟨q', hx⟩
  · intro hcases
    rcases hcases with ⟨rfl, rfl⟩ | ⟨q', hx⟩
    · exact ⟨q, by simp⟩
    · refine ⟨q', ?_⟩
      by_cases hkq : k' = k ∧ q' = q
      · obtain ⟨rfl, rfl⟩ := hkq
        rw [Roster.set_self]
        exact List.mem_cons_of_mem o hx
      · rwa [Roster.set_of_ne _ _ hkq]

/-- A reference whose link is null is put on a list of its kind. -/
theorem Listing.push (hr : Listing p h r) (hq : q < p.queues) (hg : h.Relinks (· = o) g)
    (hl : l.Lists g (o :: r k q)) (hfree : h.following o = none) (hk : h.kindOf o = some k) :
    Listing (p.setList k q l) g (r.set k q (o :: r k q)) := by
  constructor
  case size => exact fun k' => (p.size_listsOf_setList k q l k').trans (hr.size k')
  case spread =>
    refine Processor.spread_setList ?_ fun k' _ => ?_
    · exact (hr.spread k).push (by rw [hr.size]; exact hq) hg hl
        fun q' ho => hr.not_listed hfree ⟨q', ho⟩
    · refine (hr.spread k').congr (fun q' x hx => ?_) fun x => hg.agreesOff.holds
      exact hg.agreesOff.following x fun e => hr.not_listed hfree ⟨q', e ▸ hx⟩
  case kinds =>
    intro k' q' x hx
    rw [Heap.kindOf_congr hg.objects.traits]
    rcases Roster.lists_push.mp ⟨q', hx⟩ with ⟨rfl, rfl⟩ | ⟨q'', hold⟩
    · exact hk
    · exact hr.kinds k' q'' x hold

/-- Where the reference is not pending, the pending chain stays what it was. -/
theorem Registered.push (hr : Registered p h r ps) (hl : Listing p' g (r.set k q (o :: r k q)))
    (hg : h.Relinks (· = o) g) (hps : o ∉ ps) :
    Registered p' g (r.set k q (o :: r k q)) ps := by
  have hagrees := hg.agreesOff
  refine .of_listing hl (hr.pending.congr hg.pending
    (fun x hx => hagrees.following x fun e => hps (e ▸ hx)) fun x _ => hagrees.holds) ?_
  intro k' x hx hlisted
  rcases Roster.lists_push.mp hlisted with ⟨-, rfl⟩ | ⟨q', hold⟩
  · exact hps hx
  · exact hr.free k' q' x hold hx

/-- Links are covered again once the reference with the new link is listed. -/
theorem Roster.Covers.push (hc : r.Covers h ps) (hg : h.Relinks (· = o) g) :
    (r.set k q (o :: r k q)).Covers g ps := by
  intro x hx
  by_cases hxo : x = o
  · exact .inl ⟨k, Roster.lists_push.mpr (.inl ⟨rfl, hxo⟩)⟩
  · rw [hg.agreesOff.following x hxo] at hx
    exact (hc x hx).imp (fun ⟨k', hk'⟩ => ⟨k', Roster.lists_push.mpr (.inr hk')⟩) id

namespace Heap

/-- What can be asked about an object can be asked about exactly the held ones. -/
theorem holds_iff_survey : h.holds o = true ↔ (h.survey o).isSome := by
  rw [holds_iff_slot, survey, Option.isSome_map, Option.isSome_iff_exists]

/-- What a policy can go by in a held object is what can be read there. -/
theorem sighting_ok (ho : h.holds o = true) :
    ∃ s, h.survey o = some s ∧ h.next o = .ok s.next ∧ h.referent o = .ok s.referent ∧
      h.generation o = .ok s.generation ∧ h.timestamp o = .ok s.timestamp := by
  obtain ⟨s, hs⟩ := holds_iff_slot.mp ho
  refine ⟨s.sighting, by rw [survey, hs]; rfl, load_eq_ok hs, load_eq_ok hs, ?_, ?_⟩
  · simp [generation, slot_eq_ok hs, Slot.sighting, Functor.map, Except.map]
  · simp [timestamp, slot_eq_ok hs, Slot.sighting, Functor.map, Except.map]

/-- What a judgement may read: traits, target and next link, but no mark and no list. -/
theorem survey_eq (h : Heap) (o : Handle) : h.survey o = (h.traits o).map fun t =>
    ⟨t.kind, t.generation, t.timestamp, h.target o, h.nextLink o, (h.edgesOf o).contains⟩ := by
  cases hs : h.slot? o with
  | none => simp [survey, traits, hs]
  | some s =>
      simp only [survey, traits, target, link, edgesOf, hs, Option.map_some, Option.bind_some,
        Option.getD_some]
      rfl

/-- Tables with the same objects, targets and next links look the same to a policy if the
same edges lead from each object, in whatever order. -/
theorem survey_congr
    (hbare : ∀ o, (g.traits o).map Traits.bare = (h.traits o).map Traits.bare)
    (htarget : ∀ o, g.target o = h.target o) (hnext : ∀ o, g.nextLink o = h.nextLink o)
    (hedges : ∀ o p, p ∈ g.edgesOf o ↔ p ∈ h.edgesOf o) : g.survey = h.survey := by
  funext o
  have hcontains : (g.edgesOf o).contains = (h.edgesOf o).contains := by
    funext p
    rw [Bool.eq_iff_iff, List.contains_iff_mem, List.contains_iff_mem]
    exact hedges o p
  rw [survey_eq, survey_eq, htarget, hnext, hcontains]
  have hb := hbare o
  cases hg : g.traits o with
  | none => cases hh : h.traits o <;> simp_all
  | some t => cases hh : h.traits o <;> simp_all [Traits.bare]

/-- The same for tables whose objects have the same traits. -/
theorem survey_of_traits (htraits : g.traits = h.traits)
    (htarget : ∀ o, g.target o = h.target o) (hnext : ∀ o, g.nextLink o = h.nextLink o) :
    g.survey = h.survey :=
  survey_congr (fun o => by rw [htraits]) htarget hnext
    fun o p => by rw [edgesOf_congr htraits]

end Heap

namespace Processor

variable {sink : Sink} {worker : Option Nat} {offer : Offer}

/-- The queue of a new member: that of the worker if every worker has its own, else the one
whose turn it is if several workers will process the queues, else the first. -/
def route (p : Processor) (worker : Option Nat) : Nat :=
  if p.multiDiscovery then worker.getD 0 else if p.isMulti then p.turn else 0

/-- The turn goes round among the active queues, but only where it was asked for. -/
def turnAfter (p : Processor) : Nat :=
  if !p.multiDiscovery && p.isMulti then (p.turn + 1) % p.degree else p.turn

/-- What came of offering the reference `o` of kind `k` under the worker id `worker`. -/
inductive Offered (p : Processor) (h : Heap) (r : Roster) (worker : Option Nat) (o : Handle)
    (k : RefKind) (offer : Offer) : Prop
  /-- It was declined. -/
  | declined (refused : offer.accepted = false) (processor : offer.processor = p)
      (heap : offer.heap = h) (why : p.declines h o k = .ok true)
  /-- It is on a list or chain already. -/
  | known (answer : offer.accepted = (p.config.rediscovery == .treatAsDiscovered))
      (linked : h.following o ≠ none) (active : k = .final → h.nextLink o = none)
      (processor : offer.processor = p) (heap : offer.heap = h)
      (wanted : p.declines h o k = .ok false)
  /-- It was put on a list. -/
  | listed (q : Nat) (queue : q = p.route worker) (taken : offer.accepted = true)
      (active : k = .final → h.nextLink o = none) (free : h.following o = none)
      (listing : Listing offer.processor offer.heap (r.set k q (o :: r k q)))
      (relinks : h.Relinks (· = o) offer.heap) (setup : offer.processor.setup = p.setup)
      (degree : offer.processor.degree = p.degree)
      (turned : offer.processor.turn = p.turnAfter)
      (turn : offer.processor.turn < max p.degree 1) (wanted : p.declines h o k = .ok false)

/-- A final reference that was processed before is inactive, and no other reference is. -/
theorem isInactive_ok (ho : h.holds o = true) :
    isInactive h o k = .ok (decide (k = .final) && (h.nextLink o).isSome) := by
  unfold isInactive
  split
  · next hk => simp [hk, Heap.next_ok ho, Functor.map, Except.map]
  · next hk => simp [hk]

/-- Every scope, a host's own included, answers for a held object. -/
theorem contains_ok (s : Scope) (ho : h.holds o = true) : ∃ b, s.contains h o = .ok b := by
  cases s with
  | wholeHeap => exact ⟨true, rfl⟩
  | generation g =>
      obtain ⟨t, -, hgen, -⟩ := Heap.traits_ok ho
      exact ⟨t.generation == g, by simp [Scope.contains, hgen, Functor.map, Except.map]⟩
  | objects f => exact ⟨f o, rfl⟩

/-- An object is known alive exactly if there is an oracle that says so of its target. -/
theorem isKnownAlive_ok (p : Processor) (ho : h.holds o = true) :
    ∃ b, p.isKnownAlive h o = .ok b ∧ (b = true ↔ ∃ known t, p.knownAlive = some known ∧
      h.target o = some t ∧ known t = true) := by
  unfold isKnownAlive
  split
  · next hnone => exact ⟨false, rfl, by simp [hnone]⟩
  · next known hknown =>
      refine ⟨(h.target o).any known,
        by simp [Heap.referent_ok ho, Functor.map, Except.map], ?_⟩
      cases h.target o <;> simp [hknown]

/-- The idle time of every soft reference is a signed 64-bit number. -/
def Timely (p : Processor) (h : Heap) : Prop :=
  ∀ o t, h.traits o = some t → isClockReading (p.snapshot - t.timestamp) = true

/-- A soft reference is kept exactly if the policy does not clear it, and no other is. -/
theorem isKeptSoft_ok (p : Processor) (hp : p.Timely h) (ho : h.holds o = true) :
    ∃ b, p.isKeptSoft h o k = .ok b ∧
      (b = true ↔ k = .soft ∧ p.currentPolicy.shouldClear h o p.snapshot = .ok false) := by
  unfold isKeptSoft
  split
  · next hsoft =>
      obtain ⟨b, hb⟩ : ∃ b, p.currentPolicy.shouldClear h o p.snapshot = .ok b := by
        cases p.currentPolicy with
        | always => exact ⟨true, rfl⟩
        | never => exact ⟨false, rfl⟩
        | leastRecentlyUsed basis rate interval =>
            obtain ⟨t, ht, -, hstamp⟩ := Heap.traits_ok ho
            have helapsed : elapsedSince p.snapshot t.timestamp =
                .ok (p.snapshot - t.timestamp) := by
              rw [elapsedSince, if_pos (hp o t ht)]
            exact ⟨_, (except_bind_ok hstamp).trans ((except_bind_ok helapsed).trans rfl)⟩
        | injected judge setups => exact ⟨judge setups h.survey o p.snapshot, rfl⟩
      exact ⟨!b, by simp [hb, Functor.map, Except.map], by simp [hsoft, hb]⟩
  · next hsoft => exact ⟨false, rfl, by simp [hsoft]⟩

/-- Why a reference is declined. -/
inductive Refuses (p : Processor) (h : Heap) (o : Handle) (k : RefKind) : Prop
  /-- Nothing is being discovered. -/
  | disabled (off : p.enabled = false)
  /-- References are not discovered at all. -/
  | unregistered (off : p.config.registerReferences = false)
  /-- It is a final reference that was processed before. -/
  | inactive (final : k = .final) (processed : h.nextLink o ≠ none)
  /-- It is out of scope. -/
  | outOfScope (outside : p.scope.contains h o = .ok false)
  /-- Its target is known to be reachable. -/
  | alive {t : Handle} (known : Handle → Bool) (oracle : p.knownAlive = some known)
      (target : h.target o = some t) (reachable : known t = true)
  /-- The policy keeps soft references like it. -/
  | keptSoft (soft : k = .soft) (kept : p.currentPolicy.shouldClear h o p.snapshot = .ok false)

/-- It can be told whether a reference is declined, and it is for one of the reasons. -/
theorem declines_ok (p : Processor) (hp : p.Timely h) (ho : h.holds o = true) :
    ∃ b, p.declines h o k = .ok b ∧ (b = true ↔ p.Refuses h o k) := by
  obtain ⟨inScope, hscope⟩ := contains_ok p.scope ho
  obtain ⟨alive, halive, hknown⟩ := p.isKnownAlive_ok ho
  obtain ⟨keptSoft, hsoft, hkept⟩ := p.isKeptSoft_ok (k := k) hp ho
  unfold declines
  by_cases hoff : (!p.enabled || !p.config.registerReferences) = true
  · refine ⟨true, by rw [if_pos hoff]; rfl, iff_of_true rfl ?_⟩
    rcases Bool.or_eq_true_iff.mp hoff with hoff | hoff
    · exact .disabled (by simpa using hoff)
    · exact .unregistered (by simpa using hoff)
  rw [if_neg hoff]
  by_cases hinactive : (decide (k = .final) && (h.nextLink o).isSome) = true
  · refine ⟨true, (except_bind_ok (isInactive_ok ho)).trans (by rw [if_pos hinactive]; rfl),
      iff_of_true rfl ?_⟩
    rw [Bool.and_eq_true, decide_eq_true_eq, Option.isSome_iff_ne_none] at hinactive
    exact .inactive hinactive.1 hinactive.2
  refine ⟨!inScope || alive || keptSoft, (except_bind_ok (isInactive_ok ho)).trans ?_, ?_, ?_⟩
  · rw [if_neg hinactive]
    refine (except_bind_ok hscope).trans ?_
    cases inScope with
    | false => rfl
    | true =>
        refine (except_bind_ok halive).trans ?_
        cases alive with
        | true => rfl
        | false => exact hsoft
  · intro hdeclined
    rcases Bool.or_eq_true_iff.mp hdeclined with hdeclined | hdeclined
    · rcases Bool.or_eq_true_iff.mp hdeclined with hdeclined | hdeclined
      · exact .outOfScope (by simpa using hscope.trans (by simpa using hdeclined))
      · obtain ⟨known, t, horacle, htarget, hreachable⟩ := hknown.mp hdeclined
        exact .alive known horacle htarget hreachable
    · obtain ⟨hsoft, hkeep⟩ := hkept.mp hdeclined
      exact .keptSoft hsoft hkeep
  · intro hrefuses
    cases hrefuses with
    | disabled off => simp [off] at hoff
    | unregistered off => simp [off] at hoff
    | inactive final processed =>
        refine absurd ?_ hinactive
        rw [Bool.and_eq_true, decide_eq_true_eq, Option.isSome_iff_ne_none]
        exact ⟨final, processed⟩
    | outOfScope outside =>
        rw [outside, Except.ok.injEq] at hscope
        simp [← hscope]
    | alive known oracle target reachable =>
        simp [hknown.mpr ⟨known, _, oracle, target, reachable⟩]
    | keptSoft soft kept => simp [hkept.mpr ⟨soft, kept⟩]

/-- A reference is declined for one of the reasons. -/
theorem declines_iff (hp : p.Timely h) (ho : h.holds o = true) :
    p.declines h o k = .ok true ↔ p.Refuses h o k := by
  obtain ⟨b, hb, hiff⟩ := p.declines_ok (k := k) hp ho
  rw [hb, Except.ok.injEq, hiff]

/-- Where a reference is not declined, references are being discovered, and it was not
processed before. -/
theorem active_of_not_refuses (hno : ¬ p.Refuses h o k) :
    p.enabled = true ∧ (k = .final → h.nextLink o = none) := by
  constructor
  · by_contra hoff
    exact hno (.disabled (by simpa using hoff))
  · intro hfinal
    by_contra hnext
    exact hno (.inactive hfinal hnext)

/-- The processor `p'` declines the references that `p` declines. -/
structure JudgesLike (p p' : Processor) : Prop where
  enabled : p'.enabled = p.enabled
  registers : p'.config.registerReferences = p.config.registerReferences
  scope : p'.scope = p.scope
  knownAlive : p'.knownAlive = p.knownAlive
  policy : p'.currentPolicy = p.currentPolicy
  snapshot : p'.snapshot = p.snapshot

theorem JudgesLike.refl (p : Processor) : p.JudgesLike p := ⟨rfl, rfl, rfl, rfl, rfl, rfl⟩

/-- Judging alike goes both ways. -/
theorem JudgesLike.symm (hp : p.JudgesLike p') : p'.JudgesLike p :=
  ⟨hp.enabled.symm, hp.registers.symm, hp.scope.symm, hp.knownAlive.symm, hp.policy.symm,
    hp.snapshot.symm⟩

/-- Judging alike is passed on. -/
theorem JudgesLike.trans {p'' : Processor} (hp : p.JudgesLike p') (hp' : p'.JudgesLike p'') :
    p.JudgesLike p'' :=
  ⟨hp'.enabled.trans hp.enabled, hp'.registers.trans hp.registers, hp'.scope.trans hp.scope,
    hp'.knownAlive.trans hp.knownAlive, hp'.policy.trans hp.policy,
    hp'.snapshot.trans hp.snapshot⟩

/-- A processor with the same setup judges alike. -/
theorem judgesLike_of_setup (hp : p'.setup = p.setup) : p.JudgesLike p' where
  enabled := show p'.setup.enabled = p.setup.enabled by rw [hp]
  registers := by rw [config_eq_of_setup hp]
  scope := show p'.setup.scope = p.setup.scope by rw [hp]
  knownAlive := show p'.setup.knownAlive = p.setup.knownAlive by rw [hp]
  policy := show p'.setup.currentPolicy = p.setup.currentPolicy by rw [hp]
  snapshot := show p'.setup.snapshot = p.setup.snapshot by rw [hp]

/-- Whether an object is in scope depends on its generation and the scope. -/
theorem contains_congr {s s' : Scope} (hs : s' = s) (hgeneration : g.generation o = h.generation o) :
    s'.contains g o = s.contains h o := by
  rw [hs]
  cases s with
  | wholeHeap => rfl
  | generation wanted => rw [Scope.contains, hgeneration, Scope.contains]
  | objects f => rfl

/-- Whether a referent is known alive depends on the referent and the oracle. -/
theorem isKnownAlive_congr (hknown : p'.knownAlive = p.knownAlive)
    (hreferent : g.referent o = h.referent o) : p'.isKnownAlive g o = p.isKnownAlive h o := by
  rw [isKnownAlive, hknown, hreferent, isKnownAlive]

/-- Whether a held reference is declined depends on what a policy can go by in the table. -/
theorem declines_eq (hp : p.JudgesLike p') (hsurvey : g.survey = h.survey)
    (ho : h.holds o = true) (k : RefKind) : p'.declines g o k = p.declines h o k := by
  obtain ⟨s, hs, hnext, hreferent, hgeneration, hstamp⟩ := Heap.sighting_ok ho
  have ho' : g.holds o = true := by
    rw [Heap.holds_iff_survey, hsurvey, hs]
    rfl
  obtain ⟨s', hs', hnext', hreferent', hgeneration', hstamp'⟩ := Heap.sighting_ok ho'
  rw [hsurvey, hs] at hs'
  cases hs'
  have hinactive : isInactive g o k = isInactive h o k := by
    rw [isInactive, hnext', ← hnext, isInactive]
  have hsoft : p'.isKeptSoft g o k = p.isKeptSoft h o k := by
    rw [isKeptSoft, hp.policy, hp.snapshot, isKeptSoft]
    cases p.currentPolicy with
    | always => rfl
    | never => rfl
    | leastRecentlyUsed basis rate interval =>
        rw [SoftPolicy.shouldClear, hstamp', ← hstamp, SoftPolicy.shouldClear]
    | injected judge setups => rw [SoftPolicy.shouldClear, hsurvey, SoftPolicy.shouldClear]
  rw [declines, hp.enabled, hp.registers, hinactive,
    contains_congr hp.scope (hgeneration'.trans hgeneration.symm),
    isKnownAlive_congr hp.knownAlive (hreferent'.trans hreferent.symm), hsoft, declines]

/-- The queue that a reference is routed to exists. -/
theorem route_lt (hqueues : 0 < p.queues) (hdegree : p.degree ≤ p.queues)
    (hturn : p.turn < max p.degree 1)
    (hworker : p.multiDiscovery = true → worker.getD 0 < p.queues) :
    p.route worker < p.queues := by
  unfold route
  split
  · next hmulti => exact hworker hmulti
  split
  · omega
  · exact hqueues

/-- The next turn is that of an active queue. -/
theorem turnAfter_lt (hturn : p.turn < max p.degree 1) : p.turnAfter < max p.degree 1 := by
  unfold turnAfter
  split
  · next hmulti =>
      have hactive : 1 < p.degree := by simp_all [isMulti]
      have := Nat.mod_lt (p.turn + 1) (show 0 < p.degree by omega)
      omega
  · exact hturn

/-- A queue is chosen: only where workers have none of their own do the queues take turns. -/
theorem chooseQueue_ok (worker : Option Nat) (hturn : p.turn < max p.degree 1) :
    ∃ p', p.chooseQueue worker = .ok (p.route worker, p') ∧ p'.lists = p.lists ∧
      p'.setup = p.setup ∧ p'.degree = p.degree ∧ p'.turn = p.turnAfter := by
  unfold chooseQueue route turnAfter
  cases hmulti : p.multiDiscovery with
  | true => exact ⟨p, rfl, rfl, rfl, rfl, rfl⟩
  | false =>
      cases hshared : p.isMulti with
      | false => exact ⟨p, rfl, rfl, rfl, rfl, rfl⟩
      | true =>
          have hserial : (!p.multiDiscovery) = true := by rw [hmulti]; rfl
          refine ⟨_, except_bind_ok (require_ok _ hserial), rfl, rfl, rfl, ?_⟩
          have hactive : 1 < p.degree := by simp_all [isMulti]
          show (if p.degree ≤ p.turn + 1 then 0 else p.turn + 1) = (p.turn + 1) % p.degree
          split
          · next hlast => rw [show p.turn + 1 = p.degree by omega, Nat.mod_self]
          · next hlast => rw [Nat.mod_eq_of_lt (by omega)]

/-- Where the link of a reference is null no other worker has taken it, so that it is put on
the list in one way, whoever discovers. -/
theorem pushOnto_eq (p : Processor) (hnull : h.discovered o = .ok none) (k : RefKind) (q : Nat) :
    p.pushOnto h o k q = (do
      require (q < p.queues) (.queueOutOfBounds q p.queues)
      let l ← p.list k q
      let (l, h) ← l.insert h o
      return (true, p.setList k q l, h)) := by
  unfold pushOnto
  congr 1
  funext _
  congr 1
  funext l
  by_cases hmulti : p.multiDiscovery = true
  · rw [if_pos hmulti, DiscoveredList.insertShared_eq hnull]
    cases l.insert h o <;> rfl
  · rw [if_neg hmulti, hnull]
    rfl

/-- A reference of its kind that links to nothing is listed in a queue that there is. -/
theorem pushOnto_ok (hr : Listing p h r) (hq : q < p.queues) (hk : h.kindOf o = some k)
    (hfree : h.following o = none) :
    ∃ p' g, p.pushOnto h o k q = .ok (true, p', g) ∧ Listing p' g (r.set k q (o :: r k q)) ∧
      h.Relinks (· = o) g ∧ p'.setup = p.setup ∧ p'.degree = p.degree ∧ p'.turn = p.turn := by
  have ho := Heap.holds_of_kindOf hk
  obtain ⟨l, hlist, hl⟩ := hr.list_ok (k := k) hq
  obtain ⟨hinsert, hl'⟩ := hl.insert_ok ho fun ho => hr.not_listed hfree ⟨q, ho⟩
  have hrelinks := Heap.relinks_write (S := (· = o)) (h := h) (v := some (l.head.getD o)) rfl
  refine ⟨_, _, ?_, hr.push hq hrelinks hl' hfree hk, hrelinks, rfl, rfl, rfl⟩
  rw [p.pushOnto_eq (by rw [Heap.discovered_ok ho, hfree])]
  refine (except_bind_ok (require_ok _ (decide_eq_true hq))).trans ?_
  exact (except_bind_ok hlist).trans ((except_bind_ok hinsert).trans rfl)

/-- Offering a reference returns. -/
theorem discover_ok (hr : Listing p h r) (hp : p.Timely h) (hk : h.kindOf o = some k)
    (hqueues : 0 < p.queues) (hdegree : p.degree ≤ p.queues) (hturn : p.turn < max p.degree 1)
    (hworker : p.multiDiscovery = true → worker.getD 0 < p.queues) :
    ∃ offer, p.discover h sink worker o (some k) = .ok offer ∧
      Offered p h r worker o k offer := by
  have ho := Heap.holds_of_kindOf hk
  obtain ⟨refused, hrefused, hwhy⟩ := p.declines_ok (k := k) hp ho
  unfold discover
  cases refused with
  | true => exact ⟨_, (except_bind_ok hrefused).trans rfl, .declined rfl rfl rfl hrefused⟩
  | false =>
      have hactive := (active_of_not_refuses (mt hwhy.mpr Bool.false_ne_true)).2
      cases hlink : h.following o with
      | some x =>
          refine ⟨_, (except_bind_ok hrefused).trans
            ((except_bind_ok (Heap.discovered_ok ho)).trans (by rw [hlink]; rfl)), ?_⟩
          exact .known rfl (by rw [hlink]; simp) hactive rfl rfl hrefused
      | none =>
          obtain ⟨p₁, hchoose, hlists, hsetup, hdeg, hturn₁⟩ := chooseQueue_ok worker hturn
          have hconfig := config_eq_of_setup hsetup
          have hq := route_lt hqueues hdegree hturn hworker
          rw [← queues_congr hconfig] at hq
          obtain ⟨p', g, hpush, hr', hrelinks, hsetup', hdegree', hturn'⟩ :=
            pushOnto_ok (hr.of_lists hlists hconfig) hq hk hlink
          have hturned := hturn'.trans hturn₁
          let line := "Discovered reference " ++ (if p'.multiDiscovery then "(mt) " else "") ++
            describe o k
          refine ⟨⟨true, p', g, sink.write .trace line⟩, (except_bind_ok hrefused).trans
            ((except_bind_ok (Heap.discovered_ok ho)).trans ?_),
            .listed _ rfl rfl hactive hlink hr' hrelinks (hsetup'.trans hsetup)
              (hdegree'.trans hdeg) hturned (by rw [hturned]; exact turnAfter_lt hturn) hrefused⟩
          rw [hlink]
          exact (except_bind_ok hchoose).trans ((except_bind_ok hpush).trans rfl)

/-- An offer is accepted where the reference is not declined, and either is on no
list or chain or is counted as discovered there. -/
theorem accepted_iff (ho : h.holds o = true)
    (hrun : p.discover h sink worker o (some k) = .ok offer) :
    offer.accepted = true ↔ p.declines h o k = .ok false ∧
      (h.following o = none ∨ p.config.rediscovery = .treatAsDiscovered) := by
  simp only [discover] at hrun
  cases hrefused : p.declines h o k with
  | error e =>
      rw [hrefused] at hrun
      cases hrun
  | ok refused =>
      rw [except_bind_ok hrefused] at hrun
      cases refused with
      | true =>
          cases hrun
          simp
      | false =>
          rw [if_neg (by simp), except_bind_ok (Heap.discovered_ok ho)] at hrun
          cases hlink : h.following o with
          | some x =>
              rw [hlink] at hrun
              cases hrun
              simp
          | none =>
              rw [hlink, if_neg (by simp)] at hrun
              obtain ⟨⟨queue, p₁⟩, -, hrun⟩ := exists_of_except_bind_ok hrun
              obtain ⟨⟨listed, p₂, g⟩, -, hrun⟩ := exists_of_except_bind_ok hrun
              cases hrun
              simp

/-- The processor after discovery was enabled. -/
def discovering (p : Processor) : Processor :=
  { p with enabled := true, snapshot := p.clock.millis }

/-- Discovery starts where it is not going on and all lists are empty. -/
theorem enable_ok (hr : Registered p h Roster.none ps) (hoff : p.enabled = false) :
    p.enable = .ok p.discovering := by
  unfold enable
  refine (except_bind_ok (require_ok _ (by rw [hoff]; rfl))).trans ?_
  exact (except_bind_ok (hr.verifyEmpty_ok fun _ _ => rfl)).trans rfl

end Processor

/-- Offering a reference in a cycle is offering it to the processor of the cycle. -/
theorem Step.discover_ok {γ : Type} {c : Cycle γ} {worker : Option Nat} {o : Handle}
    {kind : Kind} {offer : Processor.Offer}
    (h : c.processor.discover c.world.heap c.sink worker o kind = .ok offer) :
    (Step.discover worker o kind : Step γ Bool) c = .ok offer.accepted
      { c with
        processor := offer.processor
        sink := offer.sink
        world := { c.world with heap := offer.heap } } := by
  unfold Step.discover
  refine (bind_ok (get_ok c)).trans ((bind_ok (Step.ofExcept_ok h)).trans ?_)
  rfl

end Referents
