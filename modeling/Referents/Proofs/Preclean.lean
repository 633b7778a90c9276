import Referents.Preclean
import Referents.Proofs.Progress

/-!
# Precleaning

Precleaning visits lists like a resolving phase does, but only drops: whoever
it keeps stays where it is, and nothing is kept alive or published.  It may be
cut short before any list and before any member; the rest of the list then
stays on it.  What it asked so far whether to stop is its list of **polls**,
and the invariant of the collector relates these to the world as well.

* `Cursor.Trimmed`, `precleanList_ok` — a list after precleaning has some of
  its members left, and the others were dropped for a reason.
* `Cleaning`, `Step.preclean_ok` — precleaning returns, and settles nothing but
  such drops.
* `Ended`, `Step.preclean_ended` — the lists before the cut are precleaned,
  those after it are as they were, and so are the members after it.
-/

namespace Referents

variable {γ : Type} {hooks : Hooks γ} {I : List Call → World γ → Prop} {check : YieldCheck γ}
variable {prev calls more : List Call}

/-- The invariant of a collector does not depend on what answers to stop. -/
structure YieldCheck.Respects (check : YieldCheck γ) (J : World γ → Prop) : Prop where
  atList : ∀ {w}, J w → J { w with collector := (check.atList w.collector).2 }
  atReference : ∀ {w}, J w → J { w with collector := (check.atReference w.collector).2 }

/-- A question whether to stop, with the answer. -/
inductive Poll where
  /-- It was asked before a list. -/
  | list (stop : Bool)
  /-- It was asked before a member. -/
  | reference (stop : Bool)
deriving DecidableEq

/-- The polls before some members, and one more if a stop was asked for there. -/
def memberPolls (seen : Nat) (cut : Bool) : List Poll :=
  List.replicate seen (.reference false) ++ if cut then [.reference true] else []

variable {L : List Poll → List Call → World γ → Prop} {polls : List Poll}

/-- The invariant of a collector knows what was asked whether to stop. -/
structure YieldCheck.Polled (check : YieldCheck γ)
    (L : List Poll → List Call → World γ → Prop) : Prop where
  atList : ∀ {polls calls w}, L polls calls w →
    L (polls ++ [.list (check.atList w.collector).1]) calls
      { w with collector := (check.atList w.collector).2 }
  atReference : ∀ {polls calls w}, L polls calls w →
    L (polls ++ [.reference (check.atReference w.collector).1]) calls
      { w with collector := (check.atReference w.collector).2 }

/-- An invariant that does not depend on the answers holds whatever was asked. -/
theorem YieldCheck.Polled.of_respects (hcheck : ∀ calls, check.Respects (I calls)) :
    check.Polled fun _ => I where
  atList := (hcheck _).atList
  atReference := (hcheck _).atReference

/-- Asking the collector returns its answer, and changes it alone. -/
theorem Act.ask_ok {α : Type} (f : γ → α × γ) (w : World γ) :
    (Act.ask f : Act γ α) w =
      .ok (f w.collector).1 { w with collector := (f w.collector).2 } := rfl

namespace Cursor

variable {h g : Heap} {o : Handle} {c : Cursor} {w : World γ}
variable {passed kept rest ms : List Handle}

/-- Of the members `ms` of a list those in `kept` are left, and the others were
dropped for a reason. -/
structure Trimmed (h : Heap) (ms kept : List Handle) (calls : List Call) (g : Heap) : Prop where
  agrees : h.AgreesOff (· ∈ ms) g
  target : ∀ o, h.holds o = true → g.target o = h.target o
  next : ∀ o, h.holds o = true → g.nextLink o = h.nextLink o
  sublist : kept.Sublist ms
  gone : ∀ o ∈ ms, o ∉ kept → g.following o = none
  dropped : ∀ o ∈ ms, o ∉ kept →
    h.target o = none ∨ ∃ r, h.target o = some r ∧ .isAlive r true ∈ calls

/-- A visit that stops has trimmed the list: what was not visited is kept. -/
theorem At.trimmed (hc : c.At g passed kept rest)
    (hv : Verdicts h false (passed ++ rest) passed kept calls g) :
    Trimmed h (passed ++ rest) (kept ++ rest) calls g where
  agrees := hv.agrees
  target o ho := by simpa using hv.target o ho
  next := hv.next
  sublist := hc.sublist.append (List.Sublist.refl rest)
  gone o ho hk := by
    rw [List.mem_append, not_or] at hk
    exact hc.gone o ((List.mem_append.mp ho).resolve_right hk.2) hk.1
  dropped o ho hk := by
    rw [List.mem_append, not_or] at hk
    exact hv.dropped o ((List.mem_append.mp ho).resolve_right hk.2) hk.1

/-- The list of a visit has the kept members and those to come. -/
theorem At.all_lists (hc : c.At h passed kept rest) : c.list.Lists h (kept ++ rest) where
  head := hc.head
  length := by rw [List.length_append]; exact hc.length
  linked := hc.linked
  nodup := hc.kept_nodup
  held o ho := hc.held o ((hc.sublist.append (List.Sublist.refl rest)).subset ho)

/-- Precleaning one member: it is dropped or kept, and the visit goes on. -/
theorem precleanMember_ok (check : YieldCheck γ) (hh : hooks.Answering I)
    (hheld : ∀ p ∈ passed ++ o :: rest, h.holds p = true)
    (hres : Resolvable h true (passed ++ o :: rest))
    (hv : Visits I prev h false false passed (o :: rest) c w) :
    ∃ d w', Visits I prev h false false (passed ++ [o]) rest d w' ∧ ∀ fuel, (do
      let c ← Act.read (c.load true)
      if ← pure c.referent.isNone <||> c.isReferentAlive hooks.dropOnly then
        let c ← Act.transform c.drop
        precleanFrom hooks.dropOnly check fuel (← Act.ofExcept c.skip)
      else precleanFrom hooks.dropOnly check fuel (← Act.ofExcept c.advance) :
        Act γ (Bool × Cursor)) w = precleanFrom hooks.dropOnly check fuel d w' := by
  obtain ⟨kept, calls, hc, hv, ht, hp, hI⟩ := hv
  have ho : o ∈ passed ++ o :: rest := by simp
  have hsame : w.heap.target o = h.target o := by simpa using hv.target o (hheld o ho)
  have hload := hc.load_ok true
    (fun r hr => hv.agrees.holds ((hres o ho).1 r (hsame ▸ hr))) (fun _ => rfl)
  cases htarget : h.target o with
  | none =>
      rw [hsame, htarget] at hload
      have hc₁ := hc.loaded (rest.head?.or (some o)) none
      obtain ⟨d, hskip, hd⟩ := visits_drop hh hc₁ rfl hv (by simpa using ht.drop (.null htarget))
        hp hI (.inl htarget)
      refine ⟨d, _, hd, fun fuel => ?_⟩
      refine (bind_ok (Act.read_ok hload)).trans ?_
      refine (bind_ok (a := true) rfl).trans ?_
      refine (bind_ok (Act.transform_ok (hc₁.drop_eq rfl))).trans ?_
      exact bind_ok (Act.ofExcept_ok hskip)
  | some r =>
      rw [hsame, htarget] at hload
      have hr : w.heap.holds r = true := hv.agrees.holds ((hres o ho).1 r htarget)
      obtain ⟨answer, w₁, hask, hkeeps, hI₁⟩ := hh.isAlive hI hr
      have hc₁ := (hc.loaded (rest.head?.or (some o)) (some r)).keeps hkeeps
      have hv₁ := hv.keeps hkeeps [.isAlive r answer]
      have hp₁ := hkeeps.pending.trans hp
      rw [List.append_assoc] at hI₁
      have hanswer : ((pure (some r : Option Handle).isNone <||> isReferentAlive hooks.dropOnly
          { c with following := rest.head?.or (some o), referent := some r }) : Act γ Bool) w =
          .ok answer w₁ := (bind_ok (a := false) rfl).trans hask
      cases answer with
      | true =>
          obtain ⟨d, hskip, hd⟩ := visits_drop hh hc₁ rfl hv₁
            (by simpa using ht.drop (.alive htarget)) hp₁ hI₁ (.inr ⟨r, htarget, by simp⟩)
          refine ⟨d, _, hd, fun fuel => ?_⟩
          refine (bind_ok (Act.read_ok hload)).trans ?_
          refine (bind_ok hanswer).trans ?_
          refine (bind_ok (Act.transform_ok (hc₁.drop_eq rfl))).trans ?_
          exact bind_ok (Act.ofExcept_ok hskip)
      | false =>
          obtain ⟨d, hadvance, hd⟩ := visits_keep hc₁ rfl hv₁
            (by simpa using ht.keep (.dead htarget)) hp₁ hI₁ htarget (by simp)
          refine ⟨d, w₁, hd, fun fuel => ?_⟩
          refine (bind_ok (Act.read_ok hload)).trans ?_
          refine (bind_ok hanswer).trans ?_
          exact bind_ok (Act.ofExcept_ok hadvance)

/-- Precleaning the rest of a list returns; it goes on to the end, unless it is told to stop. -/
theorem precleanFrom_ok (hh : ∀ polls, hooks.Answering (L polls)) (hcheck : check.Polled L)
    (hheld : ∀ p ∈ passed ++ rest, h.holds p = true) (hres : Resolvable h true (passed ++ rest))
    (hv : Visits (L polls) prev h false false passed rest c w) {fuel : Nat}
    (hfuel : rest.length < fuel) :
    ∃ seen left d w', precleanFrom hooks.dropOnly check fuel c w = .ok (!left.isEmpty, d) w' ∧
      rest = seen ++ left ∧
      Visits (L (polls ++ memberPolls seen.length (!left.isEmpty))) prev h false false
        (passed ++ seen) left d w' := by
  induction rest generalizing polls passed fuel c w with
  | nil =>
      obtain ⟨fuel, rfl⟩ : ∃ n, fuel = n + 1 := ⟨fuel - 1, by simp at hfuel; omega⟩
      refine ⟨[], [], c, w, ?_, rfl, by simpa [memberPolls] using hv⟩
      rw [precleanFrom, hv.hasCurrent]
      rfl
  | cons o rest ih =>
      obtain ⟨fuel, rfl⟩ : ∃ n, fuel = n + 1 := ⟨fuel - 1, by simp at hfuel; omega⟩
      have hcurrent := hv.hasCurrent
      obtain ⟨kept, calls, hc, hv, ht, hp, hI⟩ := hv
      have hask := Act.ask_ok check.atReference w
      have hI₁ := hcheck.atReference hI
      cases hstop : (check.atReference w.collector).1 with
      | true =>
          rw [hstop] at hask hI₁
          refine ⟨[], o :: rest, c, { w with collector := (check.atReference w.collector).2 }, ?_,
            rfl, kept, calls, by simpa using hc, by simpa using hv, by simpa using ht, hp, hI₁⟩
          rw [precleanFrom, hcurrent]
          exact (bind_ok hask).trans rfl
      | false =>
          rw [hstop] at hask hI₁
          obtain ⟨d, w', hvisits, hgo⟩ := precleanMember_ok check (hh _) hheld hres
            (w := { w with collector := (check.atReference w.collector).2 })
            ⟨kept, calls, hc, hv, ht, hp, hI₁⟩
          have hsplit : passed ++ [o] ++ rest = passed ++ o :: rest := by simp
          obtain ⟨seen, left, e, w'', hrest, hcut, hdone⟩ := ih (by rw [hsplit]; exact hheld)
            (by rw [hsplit]; exact hres) hvisits (show rest.length < fuel by simpa using hfuel)
          refine ⟨o :: seen, left, e, w'', ?_, by rw [hcut]; rfl, ?_⟩
          · rw [precleanFrom, hcurrent]
            exact (bind_ok hask).trans ((hgo fuel).trans hrest)
          · simpa [memberPolls, List.replicate_succ] using hdone

end Cursor

/-- Precleaning has passed the first `p` of the members `ms` of a list, and kept the
members `kept` on it. -/
structure CutList (h : Heap) (ms : List Handle) (calls : List Call) (p : Nat)
    (kept : List Handle) : Prop where
  le : p ≤ ms.length
  kept : ∀ alive, Truthful alive calls →
    kept = (ms.take p).filter (h.stays alive) ++ ms.drop p

/-- Only the targets of the members matter. -/
theorem CutList.congr {h g : Heap} {ms kept : List Handle} {p : Nat}
    (hc : CutList h ms calls p kept) (htarget : ∀ o ∈ ms, h.target o = g.target o) :
    CutList g ms calls p kept where
  le := hc.le
  kept alive htrue := by
    have hstays : ∀ o ∈ ms.take p, h.stays alive o = g.stays alive o := fun o ho => by
      rw [Heap.stays, Heap.stays, htarget o (List.mem_of_mem_take ho)]
    rw [hc.kept alive htrue, List.filter_congr hstays]

/-- Precleaning a list returns. -/
theorem precleanList_ok (hh : ∀ polls, hooks.Answering (L polls)) (hcheck : check.Polled L)
    {l : DiscoveredList} {ms : List Handle} {w : World γ} (hl : l.Lists w.heap ms)
    (hres : Cursor.Resolvable w.heap true ms) (hI : L polls prev w) :
    ∃ p d w' kept calls, precleanList hooks check l w = .ok (decide (p < ms.length), d) w' ∧
      d.list.Lists w'.heap kept ∧ Cursor.Trimmed w.heap ms kept calls w'.heap ∧
      CutList w.heap ms calls p kept ∧ w'.heap.pendingHead = w.heap.pendingHead ∧
      L (polls ++ memberPolls p (decide (p < ms.length))) (prev ++ calls) w' := by
  obtain ⟨seen, left, d, w', hrun, rfl, hvisits⟩ := Cursor.precleanFrom_ok hh hcheck
    (show ∀ p ∈ [] ++ ms, w.heap.holds p = true from hl.held) hres
    ⟨[], [], Cursor.at_start hl, .start _ _ _, .start, rfl, by simpa using hI⟩
    (Cursor.length_lt_visitBound hl.nodup hl.held)
  obtain ⟨kept, calls, hc, hv, ht, hp, hI'⟩ := hvisits
  rw [List.nil_append] at hc hv ht
  have hcut : (!left.isEmpty) = decide (seen.length < (seen ++ left).length) := by
    cases left <;> simp
  rw [hcut] at hrun hI'
  refine ⟨seen.length, d, w', kept ++ left, calls, ?_, hc.all_lists, hc.trimmed hv,
    ⟨by simp, fun alive htrue => ?_⟩, hp, hI'⟩
  · exact (bind_ok (map_ok Cursor.visitBound (map_ok World.heap (get_ok w)))).trans hrun
  · rw [List.take_left, List.drop_left, ← ht.kept_eq htrue]

variable {r r' : Roster} {ps : List Handle} {c₀ c c' : Cycle γ} {k : RefKind} {q : Nat}

/-- Precleaning a list drops some of its members and settles nothing else. -/
theorem Settles.ofTrimmed {p : Processor} {h g : Heap} {kept : List Handle}
    (hr : Registered p h r ps) (ht : Cursor.Trimmed h (r k q) kept calls g) :
    Settles calls r h [] (r.set k q kept) g := by
  have hkept : ∀ o ∈ kept, o ∈ r k q := fun o ho => ht.sublist.subset ho
  constructor
  case agrees => exact ht.agrees.mono fun o ho => ⟨k, q, ho⟩
  case listed => exact fun k' o ho => Roster.lists_of_set hkept ho
  case published => exact fun o ho => nomatch ho
  case target => exact fun k' o ho => ht.target o (hr.lists_held (Roster.lists_of_set hkept ho))
  case next => exact fun k' o ho => ht.next o (hr.lists_held (Roster.lists_of_set hkept ho))
  case fate =>
    intro k' o ho hno
    obtain ⟨rfl, hmem, hnot⟩ := Roster.mem_of_not_set ho hno
    exact .dropped (by simp) (ht.gone o hmem hnot) (ht.target o (hr.held hmem))
      (ht.next o (hr.held hmem)) (ht.dropped o hmem hnot)

/-- Since the cycle `c₀`, whose lists had the roster `r₀`, references were only dropped. -/
structure Cleaning (I : List Call → World γ → Prop) (prev : List Call) (r₀ : Roster)
    (ps : List Handle) (c₀ : Cycle γ) (calls : List Call) (r : Roster) (c : Cycle γ) : Prop where
  start : Registered c₀.processor c₀.world.heap r₀ ps
  targets : ∀ k o, r₀.lists k o → ∀ t, c₀.world.heap.target o = some t →
    c₀.world.heap.holds t = true
  registered : Registered c.processor c.world.heap r ps
  settles : Settles calls r₀ c₀.world.heap [] r c.world.heap
  sublist : ∀ k q, (r k q).Sublist (r₀ k q)
  inv : I (prev ++ calls) c.world
  setup : c.processor.setup = c₀.processor.setup
  degree : c.processor.degree = c₀.processor.degree
  turn : c.processor.turn = c₀.processor.turn
  maxWorkers : c.times.maxWorkers = c₀.times.maxWorkers

namespace Cleaning

variable {r₀ : Roster}

/-- Only lists, setup and heap matter to what was cleaned. -/
theorem alike (hp : Cleaning I prev r₀ ps c₀ calls r c) (hc : c.Alike c') :
    Cleaning I prev r₀ ps c₀ calls r c' where
  start := hp.start
  targets := hp.targets
  registered := by
    rw [hc.world]
    exact hp.registered.of_lists hc.lists (Processor.config_eq_of_setup hc.setup)
  settles := by rw [hc.world]; exact hp.settles
  sublist := hp.sublist
  inv := by rw [hc.world]; exact hp.inv
  setup := hc.setup.trans hp.setup
  degree := hc.degree.trans hp.degree
  turn := hc.turn.trans hp.turn
  maxWorkers := hc.maxWorkers.trans hp.maxWorkers

/-- The collector was asked something, and its heap is the same. -/
theorem rest {I' : List Call → World γ → Prop} (hp : Cleaning I prev r₀ ps c₀ calls r c)
    {w : World γ} (hheap : w.heap = c.world.heap) (hI : I' (prev ++ calls) w) :
    Cleaning I' prev r₀ ps c₀ calls r { c with world := w } where
  start := hp.start
  targets := hp.targets
  registered := by rw [hheap]; exact hp.registered
  settles := by rw [hheap]; exact hp.settles
  sublist := hp.sublist
  inv := hI
  setup := hp.setup
  degree := hp.degree
  turn := hp.turn
  maxWorkers := hp.maxWorkers

/-- The members of a list that is being cleaned can be looked at. -/
theorem resolvable (hp : Cleaning I prev r₀ ps c₀ calls r c) (k : RefKind) (q : Nat) :
    Cursor.Resolvable c.world.heap true (r k q) := fun o ho =>
  ⟨fun t ht => by
    rw [hp.settles.target k o ⟨q, ho⟩] at ht
    exact hp.settles.agrees.holds (hp.targets k o (hp.settles.listed k o ⟨q, ho⟩) t ht),
    fun _ => rfl⟩

/-- The list of a kind and queue is precleaned. -/
theorem list_ok (hh : ∀ polls, hooks.Answering (L polls)) (hcheck : check.Polled L)
    (hp : Cleaning (L polls) prev r₀ ps c₀ calls r c) {l : DiscoveredList}
    (hl : l.Lists c.world.heap (r k q)) :
    ∃ p d w more kept,
      (Step.onWorld (precleanList hooks check l) : Step γ (Bool × Cursor)) c =
        .ok (decide (p < (r k q).length), d) { c with world := w } ∧
      Cleaning (L (polls ++ memberPolls p (decide (p < (r k q).length)))) prev r₀ ps c₀
        (calls ++ more) (r.set k q kept)
        { c with world := w, processor := c.processor.setList k q d.list } ∧
      CutList c.world.heap (r k q) more p kept := by
  obtain ⟨p, d, w, kept, more, hrun, hlists, htrimmed, hcut, hpending, hI⟩ :=
    precleanList_ok hh hcheck hl (hp.resolvable k q) hp.inv
  have hpends : w.heap.Pends ps := hp.registered.pending.congr hpending
    (fun o ho => htrimmed.agrees.following o fun hm => hp.registered.free k q o hm ho)
    fun o _ => htrimmed.agrees.holds
  have hkept : ∀ o ∈ kept, o ∈ r k q := fun o ho => htrimmed.sublist.subset ho
  have hregistered := hp.registered.replace htrimmed.agrees hlists hkept hpends
    (fun o ho => .inl ho) fun o ho => hp.registered.free k q o (hkept o ho)
  refine ⟨p, d, w, more, kept, Step.onWorld_ok hrun, ⟨hp.start, hp.targets, hregistered, ?_, ?_,
    by rw [← List.append_assoc]; exact hI, hp.setup, hp.degree, hp.turn, hp.maxWorkers⟩, hcut⟩
  · exact hp.settles.trans (Settles.ofTrimmed hp.registered htrimmed) hp.start.disjoint
      fun _ _ => hp.start.lists_held
  · intro k' q'
    by_cases hkq : k' = k ∧ q' = q
    · obtain ⟨rfl, rfl⟩ := hkq
      rw [Roster.set_self]
      exact htrimmed.sublist.trans (hp.sublist k' q')
    · rw [Roster.set_of_ne _ _ hkq]
      exact hp.sublist k' q'

/-- Where the collector only looks, no more than the links of listed references changes,
and those that were dropped are on no list. -/
theorem relinks (hp : Cleaning I prev r₀ ps c₀ calls r c)
    (hsame : c₀.world.heap.SameObjects c.world.heap) :
    c₀.world.heap.Relinks (fun o => ∃ k, r₀.lists k o) c.world.heap ∧
      ∀ k o, r₀.lists k o → ¬ r.lists k o → c.world.heap.following o = none := by
  have hfate : ∀ k o, r₀.lists k o → ¬ r.lists k o →
      c.world.heap.following o = none ∧ c.world.heap.target o = c₀.world.heap.target o ∧
        c.world.heap.nextLink o = c₀.world.heap.nextLink o := by
    intro k o ho hno
    cases hp.settles.fate k o ho hno with
    | dropped unlisted link target next why => exact ⟨link, target, next⟩
    | cleared weak listed target next why => cases listed
    | finalized final listed target next why => cases listed
  refine ⟨⟨hsame, hp.registered.pending.head.trans hp.start.pending.head.symm, fun a ha => ?_⟩,
    fun k o ho hno => (hfate k o ho hno).1⟩
  obtain ⟨o, f⟩ := a
  by_cases hl : ∃ k, r₀.lists k o
  · obtain ⟨k, hl⟩ := hl
    by_cases hl' : r.lists k o
    · cases f with
      | referent => exact hp.settles.target k o hl'
      | discovered => exact absurd ⟨k, hl⟩ (ha rfl)
      | next => exact hp.settles.next k o hl'
    · cases f with
      | referent => exact (hfate k o hl hl').2.1
      | discovered => exact absurd ⟨k, hl⟩ (ha rfl)
      | next => exact (hfate k o hl hl').2.2
  · by_cases ho : c₀.world.heap.holds o = true
    · exact hp.settles.agrees.link ⟨o, f⟩ ho hl
    · have ho' : ¬ c.world.heap.holds o = true := by
        rwa [Heap.holds_congr hsame.traits]
      exact (Heap.link_of_not_holds ho').trans (Heap.link_of_not_holds ho).symm

/-- What was taken off its list is on no list. -/
theorem removed (hp : Cleaning I prev r₀ ps c₀ calls r c)
    (hsame : c₀.world.heap.SameObjects c.world.heap) {o : Handle} (ho : o ∈ r₀ k q)
    (hno : o ∉ r k q) : c.world.heap.following o = none := by
  refine (hp.relinks hsame).2 k o ⟨q, ho⟩ fun ⟨q', ho'⟩ => hno ?_
  have hq : q' = q := (hp.start.spread k).apart q' q o ((hp.sublist k q').subset ho') ho
  rwa [hq] at ho'

end Cleaning

/-! ### The cut -/

/-- The kind and the queue of a list. -/
abbrev Place := RefKind × Nat

/-- The members of the list at a place. -/
def Roster.on (r : Roster) (x : Place) : List Handle := r x.1 x.2

/-- The lists of some kinds, in the order of precleaning. -/
def places (kinds : List RefKind) (queues : Nat) : List Place :=
  kinds.flatMap fun k => (List.range queues).map fun q => (k, q)

/-- The polls at lists that are precleaned to the end. -/
def Roster.pollsAt (r : Roster) (done : List Place) : List Poll :=
  done.flatMap fun x => .list false :: memberPolls (r.on x).length false

/-- Of the lists with the roster `r₀` those at the places `done` are precleaned,
and those at `todo` are as they were. -/
structure Precleaned (h : Heap) (r₀ : Roster) (calls : List Call) (done todo : List Place)
    (r : Roster) : Prop where
  nodup : (done ++ todo).Nodup
  cleaned : ∀ alive, Truthful alive calls → ∀ x ∈ done,
    r.on x = (r₀.on x).filter (h.stays alive)
  untouched : ∀ x ∈ todo, r.on x = r₀.on x

/-- Precleaning was cut short in the list at `x`, of which `p` members were passed. -/
structure CutAt (h : Heap) (r₀ : Roster) (calls : List Call) (done : List Place) (x : Place)
    (todo : List Place) (p : Nat) (r : Roster) : Prop
    extends Precleaned h r₀ calls done todo r where
  le : p ≤ (r₀.on x).length
  within : ∀ alive, Truthful alive calls →
    r.on x = ((r₀.on x).take p).filter (h.stays alive) ++ (r₀.on x).drop p

/-- The polls at the list in which precleaning was cut short. -/
inductive StopsAt (length : Nat) : Nat → List Poll → Prop
  | before : StopsAt length 0 [.list true]
  | within {p : Nat} (hp : p < length) : StopsAt length p (.list false :: memberPolls p true)

/-- The members at a place that was set are the new ones. -/
theorem Roster.on_set_self (r : Roster) (x : Place) (ms : List Handle) :
    (r.set x.1 x.2 ms).on x = ms := r.set_self x.1 x.2 ms

/-- The members at other places are as before. -/
theorem Roster.on_set_of_ne (r : Roster) {x y : Place} (ms : List Handle) (hne : y ≠ x) :
    (r.set x.1 x.2 ms).on y = r.on y :=
  r.set_of_ne ms fun e => hne (Prod.ext e.1 e.2)

/-- One more list that was visited adds its polls at the end. -/
theorem Roster.pollsAt_concat (r : Roster) (done : List Place) (x : Place) :
    r.pollsAt (done ++ [x]) =
      r.pollsAt done ++ [.list false] ++ memberPolls (r.on x).length false := by
  simp [Roster.pollsAt]

/-- No place comes twice. -/
theorem nodup_places {kinds : List RefKind} {n : Nat} (hkinds : kinds.Nodup) :
    (places kinds n).Nodup := by
  refine List.nodup_flatMap.mpr ⟨fun k _ => ?_, hkinds.imp fun hne => ?_⟩
  · exact List.nodup_range.map fun q q' e => congrArg Prod.snd e
  · intro x hx hx'
    obtain ⟨q, -, rfl⟩ := List.mem_map.mp hx
    obtain ⟨q', -, e⟩ := List.mem_map.mp hx'
    exact hne (congrArg Prod.fst e).symm

namespace Precleaned

variable {h : Heap} {r₀ : Roster} {done todo : List Place} {x : Place} {kept : List Handle}
variable {p : Nat}

/-- Before precleaning no list is done. -/
theorem start (r : Roster) (hnodup : todo.Nodup) : Precleaned h r calls [] todo r where
  nodup := by simpa using hnodup
  cleaned alive _ x hx := by cases hx
  untouched x _ := rfl

/-- Precleaning is cut short before a list. -/
theorem before (hs : Precleaned h r₀ calls done (x :: todo) r) :
    CutAt h r₀ calls done x todo 0 r where
  nodup := hs.nodup.sublist ((List.sublist_cons_self x todo).append_left done)
  cleaned := hs.cleaned
  untouched y hy := hs.untouched y (List.mem_cons_of_mem x hy)
  le := Nat.zero_le _
  within alive _ := by simpa using hs.untouched x List.mem_cons_self

/-- One more list was visited, to the end or not. -/
theorem visit (hs : Precleaned h r₀ calls done (x :: todo) r)
    (hcut : CutList h (r₀.on x) more p kept) :
    CutAt h r₀ (calls ++ more) done x todo p (r.set x.1 x.2 kept) where
  nodup := hs.before.nodup
  cleaned alive htrue y hy := by
    have hyx : y ≠ x := (List.nodup_append.mp hs.nodup).2.2 y hy x List.mem_cons_self
    rw [Roster.on_set_of_ne _ _ hyx]
    exact hs.cleaned alive htrue.of_append.1 y hy
  untouched y hy := by
    have hyx : y ≠ x := fun e =>
      (List.nodup_cons.mp (List.nodup_append.mp hs.nodup).2.1).1 (e ▸ hy)
    rw [Roster.on_set_of_ne _ _ hyx]
    exact hs.untouched y (List.mem_cons_of_mem x hy)
  le := hcut.le
  within alive htrue := by
    rw [Roster.on_set_self]
    exact hcut.kept alive htrue.of_append.2

/-- A list that was visited to the end is precleaned. -/
theorem finish (hs : Precleaned h r₀ calls done (x :: todo) r)
    (hcut : CutAt h r₀ (calls ++ more) done x todo p r') (hp : ¬ p < (r₀.on x).length) :
    Precleaned h r₀ (calls ++ more) (done ++ [x]) todo r' where
  nodup := by simpa using hs.nodup
  cleaned alive htrue y hy := by
    rcases List.mem_append.mp hy with hdone | hlast
    · exact hcut.cleaned alive htrue y hdone
    · rw [List.mem_singleton.mp hlast, hcut.within alive htrue, List.take_of_length_le (by omega),
        List.drop_of_length_le (by omega), List.append_nil]
  untouched := hcut.untouched

end Precleaned

/-- Precleaning has come as far as the places `done`, and those at `todo` are left. -/
structure Reached (L : List Poll → List Call → World γ → Prop) (prev : List Call) (r₀ : Roster)
    (ps : List Handle) (c₀ : Cycle γ) (done todo : List Place) (calls : List Call) (r : Roster)
    (c : Cycle γ) : Prop where
  cleaning : Cleaning (L (r₀.pollsAt done)) prev r₀ ps c₀ calls r c
  precleaned : Precleaned c₀.world.heap r₀ calls done todo r

/-- Precleaning the lists at some places was cut short. -/
def CutShort (L : List Poll → List Call → World γ → Prop) (prev : List Call) (r₀ : Roster)
    (ps : List Handle) (c₀ : Cycle γ) (all : List Place) (calls : List Call) (r : Roster)
    (c : Cycle γ) : Prop :=
  ∃ done x todo p last, all = done ++ x :: todo ∧ StopsAt (r₀.on x).length p last ∧
    Cleaning (L (r₀.pollsAt done ++ last)) prev r₀ ps c₀ calls r c ∧
    CutAt c₀.world.heap r₀ calls done x todo p r

/-- Precleaning has done the places `done` and has `todo` to come, or was cut short. -/
inductive Ended (L : List Poll → List Call → World γ → Prop) (prev : List Call) (r₀ : Roster)
    (ps : List Handle) (c₀ : Cycle γ) (done todo : List Place) (calls : List Call) (r : Roster)
    (c : Cycle γ) : (cut : Bool) → Prop
  | reached (h : Reached L prev r₀ ps c₀ done todo calls r c) :
      Ended L prev r₀ ps c₀ done todo calls r c false
  | cut (h : CutShort L prev r₀ ps c₀ (done ++ todo) calls r c) :
      Ended L prev r₀ ps c₀ done todo calls r c true

section Ended

variable {r₀ : Roster} {done todo : List Place} {x : Place} {cut : Bool}

/-- Taking the time besides does not matter to what precleaning has reached. -/
theorem Reached.alike (hp : Reached L prev r₀ ps c₀ done todo calls r c) (hc : c.Alike c') :
    Reached L prev r₀ ps c₀ done todo calls r c' :=
  ⟨hp.cleaning.alike hc, hp.precleaned⟩

/-- Taking the time besides does not matter to where precleaning was cut. -/
theorem CutShort.alike {all : List Place} (hp : CutShort L prev r₀ ps c₀ all calls r c)
    (hc : c.Alike c') : CutShort L prev r₀ ps c₀ all calls r c' := by
  obtain ⟨done, x, todo, p, last, hall, hstops, hcleaning, hcut⟩ := hp
  exact ⟨done, x, todo, p, last, hall, hstops, hcleaning.alike hc, hcut⟩

/-- Whether it was cut or not, precleaning has only dropped references. -/
theorem Ended.cleaning (he : Ended L prev r₀ ps c₀ done todo calls r c cut) :
    ∃ polls, Cleaning (L polls) prev r₀ ps c₀ calls r c := by
  cases he with
  | reached h => exact ⟨_, h.cleaning⟩
  | cut h =>
      obtain ⟨done, x, todo, p, last, -, -, hcleaning, -⟩ := h
      exact ⟨_, hcleaning⟩

/-- Precleaning leaves the number of queues. -/
theorem Reached.queues_eq (hp : Reached L prev r₀ ps c₀ done todo calls r c) :
    c.processor.queues = c₀.processor.queues :=
  Processor.queues_eq_of_setup hp.cleaning.setup

/-- Precleaning is told to stop before the next list. -/
theorem Reached.stop (hp : Reached L prev r₀ ps c₀ done (x :: todo) calls r c) {w : World γ}
    (hheap : w.heap = c.world.heap) (hI : L (r₀.pollsAt done ++ [.list true]) (prev ++ calls) w) :
    CutShort L prev r₀ ps c₀ (done ++ x :: todo) calls r { c with world := w } := by
  refine ⟨done, x, todo, 0, _, rfl, .before, ?_, hp.precleaned.before⟩
  exact hp.cleaning.rest hheap hI

/-- The next list is precleaned, and taken for done unless that was cut short. -/
theorem Reached.list_ok (hh : ∀ polls, hooks.Answering (L polls)) (hcheck : check.Polled L)
    (hp : Reached L prev r₀ ps c₀ done ((k, q) :: todo) calls r c) {w : World γ}
    (hheap : w.heap = c.world.heap) (hI : L (r₀.pollsAt done ++ [.list false]) (prev ++ calls) w)
    (hq : q < c₀.processor.queues) :
    ∃ l cut d w' calls' r', c.processor.list k q = .ok l ∧
      (Step.onWorld (precleanList hooks check l) : Step γ (Bool × Cursor))
        { c with world := w } = .ok (cut, d) { c with world := w' } ∧
      Ended L prev r₀ ps c₀ (done ++ [(k, q)]) todo calls' r'
        { c with world := w', processor := c.processor.setList k q d.list } cut := by
  have hp₁ := hp.cleaning.rest hheap hI
  obtain ⟨l, hlist, hl⟩ := hp₁.registered.list_ok (k := k) (q := q) (by rwa [← hp.queues_eq] at hq)
  obtain ⟨p, d, w', more, kept, hrun, hp₂, hcut⟩ := hp₁.list_ok hh hcheck hl
  -- the list had all its members when its turn came
  have hlist₀ : r k q = r₀.on (k, q) := hp.precleaned.untouched (k, q) List.mem_cons_self
  have hvisited : CutList c₀.world.heap (r₀.on (k, q)) more p kept := by
    rw [← hlist₀]
    exact hcut.congr fun o ho => hp₁.settles.target k o ⟨q, ho⟩
  have hcutAt := hp.precleaned.visit hvisited
  rw [hlist₀] at hrun hp₂
  by_cases hstop : p < (r₀.on (k, q)).length
  · rw [decide_eq_true hstop] at hrun hp₂
    rw [List.append_assoc] at hp₂
    exact ⟨l, true, d, w', calls ++ more, r.set k q kept, hlist, hrun,
      .cut ⟨done, (k, q), todo, p, _, by simp, .within hstop, hp₂, hcutAt⟩⟩
  · obtain rfl : p = (r₀.on (k, q)).length := by
      have := hvisited.le
      omega
    rw [decide_eq_false hstop] at hrun hp₂
    rw [← Roster.pollsAt_concat] at hp₂
    exact ⟨l, false, d, w', _, _, hlist, hrun, .reached ⟨hp₂, hp.precleaned.finish hcutAt hstop⟩⟩

end Ended

namespace Step

variable {r₀ : Roster}

/-- Once a list was visited precleaning is cut short or goes on with the rest. -/
theorem afterList_ok (k : RefKind) (d : Cursor) (rest : Step γ Bool)
    {mine done todo : List Place} {cut : Bool}
    (hended : Ended L prev r₀ ps c₀ done (mine ++ todo) calls r c cut)
    (hrest : ∀ {c₁}, Reached L prev r₀ ps c₀ done (mine ++ todo) calls r c₁ →
      ∃ out c' calls' r', rest c₁ = .ok out c' ∧
        Ended L prev r₀ ps c₀ (done ++ mine) todo calls' r' c' out) :
    ∃ out c' calls' r', (do
        if cut then
          log (.precleanAborted k.name)
          return true
        if 0 < d.visited then
          write .trace s!" Dropped {d.dropped} Refs out of {d.visited} Refs in discovered list"
        rest : Step γ Bool) c = .ok out c' ∧
      Ended L prev r₀ ps c₀ (done ++ mine) todo calls' r' c' out := by
  cases hended with
  | cut hcut =>
      obtain ⟨c', hlog, halike⟩ := log_ok (.precleanAborted k.name) c
      refine ⟨true, c', calls, r, (bind_ok hlog).trans rfl, .cut ?_⟩
      rw [List.append_assoc]
      exact hcut.alike halike
  | reached hp =>
      rw [if_neg Bool.false_ne_true]
      by_cases hsome : 0 < d.visited
      · rw [if_pos hsome]
        obtain ⟨c₁, hwrite, halike⟩ := write_ok .trace
          s!" Dropped {d.dropped} Refs out of {d.visited} Refs in discovered list" c
        obtain ⟨out, c', calls', r', hrun, hended'⟩ := hrest (hp.alike halike)
        exact ⟨out, c', calls', r', (bind_ok hwrite).trans hrun, hended'⟩
      · rw [if_neg hsome]
        exact hrest hp

/-- Precleaning the lists of a kind from a queue on returns. -/
theorem precleanQueues_ok (hh : ∀ polls, hooks.Answering (L polls)) (hcheck : check.Polled L)
    (k : RefKind) {n queue : Nat} (hn : queue + n = c₀.processor.queues)
    {done todo : List Place}
    (hp : Reached L prev r₀ ps c₀ done ((List.range' queue n).map (k, ·) ++ todo) calls r c) :
    ∃ cut c' calls' r', (precleanQueues hooks check k n queue : Step γ Bool) c = .ok cut c' ∧
      Ended L prev r₀ ps c₀ (done ++ (List.range' queue n).map (k, ·)) todo calls' r' c' cut := by
  induction n generalizing queue done calls r c with
  | zero => exact ⟨false, c, calls, r, rfl, .reached (by simpa using hp)⟩
  | succ n ih =>
      rw [List.range'_succ, List.map_cons, List.cons_append] at hp
      rw [List.range'_succ, List.map_cons]
      have hask := onWorld_ok (c := c) (Act.ask_ok check.atList c.world)
      have hI := hcheck.atList hp.cleaning.inv
      unfold precleanQueues
      cases hstop : (check.atList c.world.collector).1 with
      | true =>
          rw [hstop] at hask hI
          refine ⟨true, _, calls, r, (bind_ok hask).trans rfl, .cut ?_⟩
          rw [List.append_assoc, List.cons_append]
          exact hp.stop rfl hI
      | false =>
          rw [hstop] at hask hI
          obtain ⟨l, cut, d, w, calls₂, r₂, hlist, hrun, hended⟩ :=
            hp.list_ok hh hcheck (w := { c.world with
              collector := (check.atList c.world.collector).2 }) rfl hI (by omega)
          have hset : (setProcessor (c.processor.setList k queue d.list) : Step γ Unit)
              { c with world := w } =
              .ok () { c with world := w, processor := c.processor.setList k queue d.list } :=
            modify_ok _ _
          have hplaces : done ++ (k, queue) :: (List.range' (queue + 1) n).map (k, ·) =
              done ++ [(k, queue)] ++ (List.range' (queue + 1) n).map (k, ·) := by simp
          rw [hplaces]
          obtain ⟨out, c', calls', r', hrest, hended'⟩ := afterList_ok k d
            (precleanQueues hooks check k n (queue + 1)) hended fun hp' => ih (by omega) hp'
          refine ⟨out, c', calls', r', ?_, hended'⟩
          refine (bind_ok hask).trans ?_
          refine (bind_ok (processor_ok _)).trans ?_
          refine (bind_ok (ofExcept_ok hlist)).trans ?_
          refine (bind_ok hrun).trans ?_
          refine (bind_ok (processor_ok _)).trans ?_
          exact (bind_ok hset).trans hrest

/-- Precleaning the lists of a kind returns. -/
theorem precleanKind_ok (hh : ∀ polls, hooks.Answering (L polls)) (hcheck : check.Polled L)
    (k : RefKind) {done todo : List Place}
    (hp : Reached L prev r₀ ps c₀ done
      ((List.range c₀.processor.queues).map (k, ·) ++ todo) calls r c) :
    ∃ cut c' calls' r', (precleanKind hooks check k : Step γ Bool) c = .ok cut c' ∧
      Ended L prev r₀ ps c₀ (done ++ (List.range c₀.processor.queues).map (k, ·)) todo
        calls' r' c' cut := by
  obtain ⟨c₁, hbefore, halike₁⟩ :=
    logLengths_ok s!"{precleanName k} before" (hp.cleaning.registered.total_ok k)
  have hp₁ := hp.alike halike₁
  have hqueues := hp₁.queues_eq
  rw [List.range_eq_range', ← hqueues] at hp₁ ⊢
  obtain ⟨cut, c₂, calls₂, r₂, hqueuesRun, hended⟩ := precleanQueues_ok hh hcheck k
    (show 0 + c₁.processor.queues = c₀.processor.queues by omega) hp₁
  have hrun : ∀ rest : Bool → Step γ Bool, (do
      logLengths s!"{precleanName k} before" k
      rest (← precleanQueues hooks check k (← processor).queues 0) : Step γ Bool) c =
      rest cut c₂ := fun rest =>
    (bind_ok hbefore).trans ((bind_ok (processor_ok c₁)).trans (bind_ok hqueuesRun))
  cases hended with
  | cut hcut => exact ⟨true, c₂, calls₂, r₂, hrun _, .cut hcut⟩
  | reached hp₂ =>
      obtain ⟨c₃, hafter, halike₃⟩ :=
        logLengths_ok s!"{precleanName k} after" (hp₂.cleaning.registered.total_ok k)
      exact ⟨false, c₃, calls₂, r₂, (hrun _).trans ((bind_ok hafter).trans rfl),
        .reached (hp₂.alike halike₃)⟩

/-- Precleaning the lists of some kinds returns. -/
theorem precleanKinds_ok (hh : ∀ polls, hooks.Answering (L polls)) (hcheck : check.Polled L)
    (readings : Readings) {kinds : List RefKind} (timer : Timer) {done : List Place}
    (hp : Reached L prev r₀ ps c₀ done (places kinds c₀.processor.queues) calls r c) :
    ∃ cut timer' c' calls' r',
      (precleanKinds hooks check readings kinds timer : Step γ (Bool × Timer)) c =
        .ok (cut, timer') c' ∧
      Ended L prev r₀ ps c₀ (done ++ places kinds c₀.processor.queues) [] calls' r' c' cut := by
  induction kinds generalizing done timer calls r c with
  | nil => exact ⟨false, timer, c, calls, r, rfl, .reached (by simpa [places] using hp)⟩
  | cons k rest ih =>
      have hplaces : places (k :: rest) c₀.processor.queues =
          (List.range c₀.processor.queues).map (k, ·) ++ places rest c₀.processor.queues := by
        simp [places]
      rw [hplaces] at hp ⊢
      obtain ⟨cut, c₁, calls₁, r₁, hkind, hended⟩ := precleanKind_ok hh hcheck k hp
      cases hended with
      | cut hcut =>
          refine ⟨true, _, c₁, calls₁, r₁, (bind_ok hkind).trans rfl, .cut ?_⟩
          rwa [List.append_nil, ← List.append_assoc]
      | reached hp₁ =>
          obtain ⟨cut, timer', c₂, calls₂, r₂, hrest, hended₂⟩ :=
            ih (timer.record (precleanName k) (readings.took (.preclean k))) hp₁
          rw [List.append_assoc] at hended₂
          exact ⟨cut, timer', c₂, calls₂, r₂, (bind_ok hkind).trans hrest, hended₂⟩

/-- Precleaning returns, whenever it is told to stop. -/
theorem preclean_ended (hh : ∀ polls, hooks.Answering (L polls)) (hcheck : check.Polled L)
    (readings : Readings) (hr : Registered c.processor c.world.heap r ps)
    (htargets : ∀ k o, r.lists k o → ∀ t, c.world.heap.target o = some t →
      c.world.heap.holds t = true)
    (hI : L [] [] c.world) :
    ∃ cut timer c' calls r',
      (preclean hooks check readings : Step γ (Bool × Timer)) c = .ok (cut, timer) c' ∧
      Ended L [] r ps c (places RefKind.all c.processor.queues) [] calls r' c' cut := by
  have hp : Reached L [] r ps c [] (places RefKind.all c.processor.queues) [] r c :=
    ⟨⟨hr, htargets, hr, .refl _ _, fun _ _ => .refl _, hI, rfl, rfl, rfl, rfl⟩,
      .start r (nodup_places (by decide))⟩
  exact precleanKinds_ok hh hcheck readings {} hp

/-- Precleaning returns, and only drops references. -/
theorem preclean_ok (hh : hooks.Answering I)
    (hcheck : ∀ calls, check.Respects (I calls)) (readings : Readings)
    (hr : Registered c.processor c.world.heap r ps)
    (htargets : ∀ k o, r.lists k o → ∀ t, c.world.heap.target o = some t →
      c.world.heap.holds t = true)
    (hI : I [] c.world) :
    ∃ out c' calls r', (preclean hooks check readings : Step γ (Bool × Timer)) c = .ok out c' ∧
      Cleaning I [] r ps c calls r' c' := by
  obtain ⟨cut, timer, c', calls, r', hrun, hended⟩ := preclean_ended (L := fun _ => I)
    (fun _ => hh) (.of_respects hcheck) readings hr htargets hI
  obtain ⟨-, hcleaning⟩ := hended.cleaning
  exact ⟨(cut, timer), c', calls, r', hrun, hcleaning⟩

end Step

end Referents
