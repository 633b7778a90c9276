import Referents.Proofs.Operations

/-!
# The history of a discovery

While references are offered one after the other, the choice of queues and the number
of active queues may change, discovery may be stopped, and mutators may clear targets.
An offer has one of three outcomes, and which one can be told from the state before it.
A reference that is refused changes nothing, and neither does one that is on a list
already; every other one becomes the head of one list, that of its kind in the queue
that it is routed to.

The **log** of a history has the references that were put on lists, with the queue of
each, in the order in which this happened.  Every list, read from its head, is its part
of the log backwards.

* `Answered` — the outcome of an offer.
* `Request`, `History` — what happens between offers, and a whole history with its log.
* `History.exists_of_sound` — every sequence of requests has a history.
* `lists_reverse_log` — the lists and their lengths after a history.
-/

namespace Referents

variable {γ : Type} {c d e : Cycle γ} {r : Roster} {ps : List Handle} {p : Processor}
variable {worker : Option Nat} {o : Handle} {k : RefKind} {q : Nat}

/-! ### Logs -/

/-- A reference was put on a list. -/
structure Entry where
  obj : Handle
  kind : RefKind
  queue : Nat
deriving DecidableEq

/-- The references of a log that were put on one list, in the order of the log. -/
def routed (log : List Entry) (k : RefKind) (q : Nat) : List Handle :=
  (log.filter fun e => e.kind = k ∧ e.queue = q).map Entry.obj

/-- The lists after the entries of a log. -/
def Roster.record (r : Roster) (log : List Entry) : Roster :=
  log.foldl (fun r e => r.set e.kind e.queue (e.obj :: r e.kind e.queue)) r

theorem Roster.record_append (r : Roster) (log more : List Entry) :
    r.record (log ++ more) = (r.record log).record more := List.foldl_append

theorem Roster.lists_record {log : List Entry} :
    (r.record log).lists k o ↔ r.lists k o ∨ ∃ e ∈ log, e.kind = k ∧ e.obj = o := by
  induction log generalizing r with
  | nil => simp [record]
  | cons e log ih =>
      show ((r.set e.kind e.queue (e.obj :: r e.kind e.queue)).record log).lists k o ↔ _
      rw [ih, Roster.lists_push]
      simp only [List.mem_cons, or_and_right, exists_or, exists_eq_left]
      constructor
      · rintro ((⟨hk, ho⟩ | hl) | hlog)
        · exact .inr (.inl ⟨hk.symm, ho.symm⟩)
        · exact .inl hl
        · exact .inr (.inr hlog)
      · rintro (hl | ⟨hk, ho⟩ | hlog)
        · exact .inl (.inr hl)
        · exact .inl (.inl ⟨hk.symm, ho.symm⟩)
        · exact .inr hlog

/-- Later entries stand in front. -/
theorem Roster.record_eq (r : Roster) (log : List Entry) (k : RefKind) (q : Nat) :
    r.record log k q = (routed log k q).reverse ++ r k q := by
  induction log generalizing r with
  | nil => rfl
  | cons e log ih =>
      show (r.set e.kind e.queue (e.obj :: r e.kind e.queue)).record log k q = _
      rw [ih]
      by_cases hkq : e.kind = k ∧ e.queue = q
      · obtain ⟨rfl, rfl⟩ := hkq
        simp [routed]
      · rw [Roster.set_of_ne _ _ fun h => hkq ⟨h.1.symm, h.2.symm⟩]
        simp [routed, hkq]

/-- The lists of a kind have as many members as the log has entries of it. -/
theorem length_gather_record {log : List Entry} {h : Heap}
    (hl : Listing p h (Roster.none.record log)) (hnodup : (log.map Entry.obj).Nodup) :
    (gather (Roster.none.record log k) p.queues).length = log.countP fun e => e.kind = k := by
  have hfilter : ((log.filter fun e => e.kind = k).map Entry.obj).Nodup :=
    hnodup.sublist (List.filter_sublist.map Entry.obj)
  have hperm : (gather (Roster.none.record log k) p.queues).Perm
      ((log.filter fun e => e.kind = k).map Entry.obj) := by
    refine (List.perm_ext_iff_of_nodup ((hl.spread k).nodup_gather _) hfilter).mpr fun o => ?_
    have hlists : (Roster.none.record log).lists k o ↔ ∃ e ∈ log, e.kind = k ∧ e.obj = o :=
      Roster.lists_record.trans (or_iff_right fun ⟨_, ho⟩ => nomatch ho)
    rw [mem_gather]
    simp only [List.mem_map, List.mem_filter, decide_eq_true_eq, and_assoc]
    rw [← hlists]
    exact ⟨fun ⟨q, _, ho⟩ => ⟨q, ho⟩, fun ⟨q, ho⟩ => ⟨q, hl.lt_queues ho, ho⟩⟩
  rw [hperm.length_eq, List.length_map, List.countP_eq_length_filter]

/-! ### Offers -/

/-- The outcome of offering the reference `o` of kind `k`: whether it counts as
discovered, and whether it was put on a list. -/
inductive Answered (c : Cycle γ) (worker : Option Nat) (o : Handle) (k : RefKind) :
    Bool → List Entry → Cycle γ → Prop
  /-- It was declined, and nothing changed. -/
  | declined {d : Cycle γ} (refused : c.processor.Refuses c.world.heap o k)
      (world : d.world = c.world) (processor : d.processor = c.processor) :
      Answered c worker o k false [] d
  /-- It was on a list already, and nothing changed. -/
  | known {d : Cycle γ} (wanted : ¬ c.processor.Refuses c.world.heap o k)
      (listed : ∃ k' q, o ∈ c.members k' q) (world : d.world = c.world)
      (processor : d.processor = c.processor) :
      Answered c worker o k (c.processor.config.rediscovery == .treatAsDiscovered) [] d
  /-- It became the head of a list of its kind, and no other list changed. -/
  | listed {d : Cycle γ} (wanted : ¬ c.processor.Refuses c.world.heap o k)
      (free : ∀ k' q, o ∉ c.members k' q)
      (head : d.members k (c.processor.route worker) =
        o :: c.members k (c.processor.route worker))
      (others : ∀ k' q, ¬ (k' = k ∧ q = c.processor.route worker) →
        d.members k' q = c.members k' q)
      (turn : d.processor.turn = c.processor.turnAfter)
      (relinks : c.world.heap.Relinks (· = o) d.world.heap) :
      Answered c worker o k true [⟨o, k, c.processor.route worker⟩] d

/-- From one state to the next no object changes but for its links, and no
configuration: what may be requested stays the same. -/
structure Steady (c d : Cycle γ) : Prop where
  traits : d.world.heap.traits = c.world.heap.traits
  config : d.processor.config = c.processor.config

/-- An offer returns, and has one of the three outcomes. -/
theorem Sound.answer_ok (hs : Sound c r ps) (hk : c.world.heap.kindOf o = some k) (hps : o ∉ ps)
    (hworker : worker.getD 0 < c.processor.queues) :
    ∃ accepted first d, (Step.discover worker o (some k) : Step γ Bool) c = .ok accepted d ∧
      Answered c worker o k accepted first d ∧ Sound d (r.record first) ps ∧ Steady c d := by
  have hheld := Heap.holds_of_kindOf hk
  obtain ⟨offer, hdiscover, hoffered⟩ := hs.offered hk fun _ => hworker
  have hwanted : c.processor.declines c.world.heap o k = .ok false →
      ¬ c.processor.Refuses c.world.heap o k := by
    intro hno hrefuses
    rw [(Processor.declines_iff hs.timely hheld).mpr hrefuses] at hno
    cases hno
  have hrun := Step.discover_ok hdiscover
  cases hoffered with
  | declined refused processor heap why =>
      refine ⟨offer.accepted, [], _, hrun, ?_, hs.congr (by rw [heap]) processor, ?_⟩
      · rw [refused]
        exact .declined ((Processor.declines_iff hs.timely hheld).mp why) (by rw [heap]) processor
      · exact ⟨by rw [heap], by rw [processor]⟩
  | known answer linked active processor heap wanted =>
      refine ⟨offer.accepted, [], _, hrun, ?_, hs.congr (by rw [heap]) processor, ?_⟩
      · obtain ⟨k', q, hl⟩ := (hs.covers o linked).resolve_right hps
        rw [answer]
        refine .known (hwanted wanted) ⟨k', q, ?_⟩ (by rw [heap]) processor
        rwa [hs.members_eq]
      · exact ⟨by rw [heap], by rw [processor]⟩
  | listed q queue taken active free listing relinks setup degree turned turn wanted =>
      subst queue
      have hs' : Sound { c with
            processor := offer.processor
            sink := offer.sink
            world := { c.world with heap := offer.heap } }
          (r.set k (c.processor.route worker) (o :: r k (c.processor.route worker))) ps :=
        hs.push listing relinks setup degree turn active hps
      refine ⟨offer.accepted, [⟨o, k, c.processor.route worker⟩], _, hrun, ?_, hs', ?_⟩
      · rw [taken]
        refine .listed (hwanted wanted) (fun k' q' ho => ?_) ?_ (fun k' q' hne => ?_) ?_ relinks
        · rw [hs.members_eq] at ho
          exact hs.registered.listing.not_listed free ⟨q', ho⟩
        · rw [hs'.members_eq, hs.members_eq, Roster.set_self]
        · rw [hs'.members_eq, hs.members_eq, Roster.set_of_ne _ _ hne]
        · exact turned
      · exact ⟨relinks.objects.traits, Processor.config_eq_of_setup setup⟩

/-! ### Histories -/

/-- An offer, or what may happen between offers. -/
inductive Request where
  | offer (worker : Option Nat) (o : Handle) (k : RefKind)
  | setMulti (multi : Bool)
  | setDegree (n : Nat)
  | disable
  /-- A mutator clears the target of an object. -/
  | clear (o : Handle)

namespace Request

/-- Deals with a request; only offers are answered. -/
def run : Request → Step γ (Option Bool)
  | .offer worker o k => do return some (← Step.discover worker o (some k))
  | .setMulti multi => do
      Step.updateProcessor fun p => .ok { p with multiDiscovery := multi }
      return none
  | .setDegree n => do
      Step.updateProcessor fun p => p.setDegree n
      return none
  | .disable => do
      Step.updateProcessor fun p => .ok p.disable
      return none
  | .clear o => do
      Step.onWorld (Act.update fun h => h.clearReferent o)
      return none

/-- What may be requested while the references `ps` are pending. -/
def Allowed (c : Cycle γ) (ps : List Handle) : Request → Prop
  | .offer worker o k => c.world.heap.kindOf o = some k ∧ o ∉ ps ∧
      worker.getD 0 < c.processor.queues
  | .setDegree n => 1 ≤ n ∧ n ≤ c.processor.queues
  | .clear o => c.world.heap.holds o = true
  | _ => True

/-- What comes of a request; only offers change lists. -/
def Served (c : Cycle γ) : Request → Option Bool → List Entry → Cycle γ → Prop
  | .offer worker o k, answer, first, d =>
      ∃ accepted, answer = some accepted ∧ Answered c worker o k accepted first d
  | _, answer, first, d => answer = none ∧ first = [] ∧ ∀ k q, d.members k q = c.members k q

theorem Allowed.steady {x : Request} (hx : x.Allowed c ps) (hd : Steady c d) :
    x.Allowed d ps := by
  have hqueues := Processor.queues_congr hd.config
  cases x with
  | offer worker o k =>
      obtain ⟨hk, hps, hworker⟩ := hx
      exact ⟨by rw [Heap.kindOf_congr hd.traits, hk], hps, by rw [hqueues]; exact hworker⟩
  | setMulti multi => trivial
  | setDegree n => exact ⟨hx.1, by rw [hqueues]; exact hx.2⟩
  | disable => trivial
  | clear o =>
      show d.world.heap.holds o = true
      rw [Heap.holds_congr hd.traits]
      exact hx

/-- A setting was changed, or the target of an object: the lists are what they were. -/
theorem run_of_unlisted {x : Request} (hs : Sound c r ps) {s : Step γ Unit}
    (hrun : x.run c = (do s; return none : Step γ (Option Bool)) c) (hd : s c = .ok () d)
    (hs' : Sound d r ps) (hsteady : Steady c d)
    (hserved : ∀ answer first e, (answer = none ∧ first = [] ∧
      ∀ k q, e.members k q = c.members k q) → x.Served c answer first e) :
    ∃ answer first d, x.run c = .ok answer d ∧ x.Served c answer first d ∧
      Sound d (r.record first) ps ∧ Steady c d ∧ (first.map Entry.obj).Nodup ∧
      ∀ e ∈ first, ∀ k, ¬ r.lists k e.obj := by
  refine ⟨none, [], d, hrun.trans ((bind_ok hd).trans rfl), hserved _ _ _ ⟨rfl, rfl, fun k q => ?_⟩,
    hs', hsteady, List.nodup_nil, fun e he => nomatch he⟩
  rw [hs'.members_eq, hs.members_eq]

/-- Every allowed request returns, and keeps a cycle sound. -/
theorem run_ok {x : Request} (hs : Sound c r ps) (hx : x.Allowed c ps) :
    ∃ answer first d, x.run c = .ok answer d ∧ x.Served c answer first d ∧
      Sound d (r.record first) ps ∧ Steady c d ∧ (first.map Entry.obj).Nodup ∧
      ∀ e ∈ first, ∀ k, ¬ r.lists k e.obj := by
  cases x with
  | offer worker o k =>
      obtain ⟨hk, hps, hworker⟩ := hx
      obtain ⟨accepted, first, d, hrun, hanswered, hs', hsteady⟩ := hs.answer_ok hk hps hworker
      refine ⟨some accepted, first, d, (bind_ok hrun).trans rfl, ⟨accepted, rfl, hanswered⟩, hs',
        hsteady, ?_⟩
      cases hanswered with
      | declined refused world processor => exact ⟨List.nodup_nil, fun e he => nomatch he⟩
      | known wanted listed world processor => exact ⟨List.nodup_nil, fun e he => nomatch he⟩
      | listed wanted free head others turn relinks =>
          refine ⟨List.nodup_singleton o, fun e he k' ⟨q, ho⟩ => ?_⟩
          rw [List.mem_singleton.mp he, ← hs.members_eq] at ho
          exact free k' q ho
  | setMulti multi =>
      exact run_of_unlisted hs rfl (Step.updateProcessor_ok rfl)
        (hs.of_setting rfl rfl rfl rfl hs.clock rfl) ⟨rfl, rfl⟩ fun _ _ _ => id
  | setDegree n =>
      exact run_of_unlisted hs rfl (Step.updateProcessor_ok (Processor.setDegree_ok hx.2))
        (hs.of_processor rfl rfl hx.1 hx.2 hx.1 hs.clock hs.snapshot) ⟨rfl, rfl⟩ fun _ _ _ => id
  | disable =>
      exact run_of_unlisted hs rfl (Step.updateProcessor_ok rfl)
        (hs.of_setting rfl rfl rfl rfl hs.clock rfl) ⟨rfl, rfl⟩ fun _ _ _ => id
  | clear o =>
      exact run_of_unlisted hs rfl (Step.onWorld_ok (Act.update_ok (Heap.setReferent_ok hx)))
        (hs.retarget o (v := none) rfl) ⟨Heap.traits_write, rfl⟩ fun _ _ _ => id

end Request

/-- The requests were dealt with one after the other; `log` has the references that were
put on lists. -/
inductive History : Cycle γ → List Request → List (Option Bool) → List Entry → Cycle γ → Prop
  | nil (c : Cycle γ) : History c [] [] [] c
  | cons {c d e : Cycle γ} {x : Request} {xs : List Request} {answer : Option Bool}
      {answers : List (Option Bool)} {first log : List Entry} (run : x.run c = .ok answer d)
      (served : x.Served c answer first d) (rest : History d xs answers log e) :
      History c (x :: xs) (answer :: answers) (first ++ log) e

namespace History

variable {xs : List Request} {answers : List (Option Bool)} {log : List Entry}

/-- A history is what comes of dealing with its requests. -/
theorem mapM_eq (hh : History c xs answers log e) : xs.mapM Request.run c = .ok answers e := by
  induction hh with
  | nil c => rfl
  | cons run served rest ih =>
      rw [List.mapM_cons]
      exact (bind_ok run).trans ((bind_ok ih).trans rfl)

/-- Every sequence of allowed requests has a history, and no reference is put on a list
twice. -/
theorem exists_of_sound (hs : Sound c (r.record log) ps) (hnodup : (log.map Entry.obj).Nodup)
    (hxs : ∀ x ∈ xs, x.Allowed c ps) :
    ∃ answers more e, History c xs answers more e ∧ Sound e (r.record (log ++ more)) ps ∧
      ((log ++ more).map Entry.obj).Nodup := by
  induction xs generalizing c log with
  | nil => exact ⟨[], [], c, .nil c, by rwa [List.append_nil], by rwa [List.append_nil]⟩
  | cons x xs ih =>
      obtain ⟨answer, first, d, hrun, hserved, hs', hsteady, hfirst, hfresh⟩ :=
        Request.run_ok hs (hxs x List.mem_cons_self)
      rw [← Roster.record_append] at hs'
      have hnodup' : ((log ++ first).map Entry.obj).Nodup := by
        rw [List.map_append]
        refine List.nodup_append.mpr ⟨hnodup, hfirst, fun o ho o' ho' hoo => ?_⟩
        obtain ⟨e, he, rfl⟩ := List.mem_map.mp ho
        obtain ⟨e', he', rfl⟩ := List.mem_map.mp ho'
        exact hfresh e' he' e.kind (Roster.lists_record.mpr (.inr ⟨e, he, rfl, hoo⟩))
      obtain ⟨answers, more, e, hh, hs'', hnodup''⟩ := ih hs' hnodup' fun y hy =>
        (hxs y (List.mem_cons_of_mem x hy)).steady hsteady
      rw [List.append_assoc] at hs'' hnodup''
      exact ⟨answer :: answers, first ++ more, e, .cons hrun hserved hh, hs'', hnodup''⟩

end History

/-- From empty lists every sequence of offers, with other settings, the end of discovery
and cleared targets in between, is dealt with.  Each offer is answered by what was the case
before it, and in the end every list is its part of the log backwards: the references that
were first accepted into it, latest first.  No reference is in the log twice, and the total
of a kind is the number of its entries. -/
theorem lists_reverse_log (hs : Sound c Roster.none ps) (xs : List Request)
    (hxs : ∀ x ∈ xs, x.Allowed c ps) :
    ∃ answers log e, xs.mapM Request.run c = .ok answers e ∧ History c xs answers log e ∧
      e.WellFormed ∧ (∀ k q, e.members k q = (routed log k q).reverse) ∧
      (log.map Entry.obj).Nodup ∧
      ∀ k, e.processor.total k = .ok (log.countP fun x => x.kind = k) := by
  have hstart : Sound c (Roster.none.record []) ps := hs
  obtain ⟨answers, log, e, hh, hs', hnodup⟩ :=
    History.exists_of_sound hstart List.nodup_nil hxs
  rw [List.nil_append] at hs' hnodup
  refine ⟨answers, log, e, hh.mapM_eq, hh, hs'.wellFormed, fun k q => ?_, hnodup, fun k => ?_⟩
  · rw [hs'.members_eq, Roster.record_eq]
    exact List.append_nil _
  · rw [hs'.registered.total_ok, length_gather_record hs'.registered.listing hnodup]

/-! ### A history -/

/-- Five references to one object, three of them weak. -/
def fiveHeap : Heap where
  slots := (((((Table.empty.push (.fresh none .young none)).push
    (.fresh (some .weak) .young (some (.low 0)))).push
    (.fresh (some .weak) .young (some (.low 0)))).push
    (.fresh (some .weak) .young (some (.low 0)))).push
    (.fresh (some .final) .young (some (.low 0)))).push
    (.fresh (some .soft) .young (some (.low 0)))
  pending := .null

/-- A new processor with two queues over this table. -/
def fiveStart : Cycle Marker := { pairStart.state with world := ⟨fiveHeap, {}⟩ }

/-- References are being discovered, and soft ones are kept. -/
def fiveCycle : Cycle Marker :=
  { fiveStart with processor := { fiveStart.processor with enabled := true, policy := .never } }

/-- Weak references are dealt out in turn, one is offered again and loses its target, and
the rest goes to the queue of a worker until discovery ends. -/
def fiveRequests : List Request :=
  [.offer none (.low 1) .weak, .offer none (.low 5) .soft, .offer (some 0) (.low 2) .weak,
    .offer none (.low 1) .weak, .clear (.low 1), .setMulti true, .offer (some 1) (.low 3) .weak,
    .offer (some 1) (.low 4) .final, .setDegree 1, .disable, .offer none (.low 5) .soft]

theorem five_sound : Sound fiveCycle Roster.none [] := by
  have hcreated : Sound fiveStart Roster.none [] :=
    sound_of_create rfl (by decide) pair_created (.of_slots (by decide) (by decide) (by decide))
      (fun o => Heap.forall_link (P := (· = none)) .discovered rfl (by decide)) (by decide)
  exact hcreated.of_setting rfl rfl rfl rfl hcreated.clock rfl

theorem five_allowed : ∀ x ∈ fiveRequests, x.Allowed fiveCycle [] := by
  unfold fiveRequests
  simp only [List.forall_mem_cons]
  exact ⟨⟨by decide, by decide, by decide⟩, ⟨by decide, by decide, by decide⟩,
    ⟨by decide, by decide, by decide⟩, ⟨by decide, by decide, by decide⟩,
    show fiveCycle.world.heap.holds (.low 1) = true by decide, trivial,
    ⟨by decide, by decide, by decide⟩, ⟨by decide, by decide, by decide⟩,
    ⟨by decide, by decide⟩, trivial, ⟨by decide, by decide, by decide⟩, fun x hx => nomatch hx⟩

/-- The declined offers take no turn, and the second list gets its last member from a worker. -/
theorem lists_reverse_log_of_five :
    Sound fiveCycle Roster.none [] ∧ (∀ x ∈ fiveRequests, x.Allowed fiveCycle []) ∧
    ∃ log e, fiveRequests.mapM Request.run fiveCycle = .ok [some true, some false, some true,
        some true, none, none, some true, some true, none, none, some false] e ∧
      (∀ k q, e.members k q = (routed log k q).reverse) ∧
      e.members .weak 0 = [.low 1] ∧ e.members .weak 1 = [.low 3, .low 2] ∧
      e.members .final 1 = [.low 4] ∧ log.countP (fun x => x.kind = .weak) = 3 := by
  obtain ⟨answers, log, e, hrun, -, -, hmembers, -, htotal⟩ :=
    lists_reverse_log five_sound fiveRequests five_allowed
  obtain ⟨answers', e', hrun', hend⟩ := exists_of_run (x := fiveRequests.mapM Request.run)
    (s := fiveCycle)
    (P := fun answers e => answers = [some true, some false, some true, some true, none, none,
        some true, some true, none, none, some false] ∧ e.members .weak 0 = [.low 1] ∧
      e.members .weak 1 = [.low 3, .low 2] ∧ e.members .final 1 = [.low 4] ∧
      e.processor.total .weak = .ok 3) (by decide +kernel)
  rw [hrun] at hrun'
  cases hrun'
  rw [htotal] at hend
  obtain ⟨hanswers, hfirst, hsecond, hfinal, hcount⟩ := of_decide_eq_true hend
  rw [hanswers] at hrun
  exact ⟨five_sound, five_allowed, log, e, hrun, hmembers, hfirst, hsecond, hfinal,
    Except.ok.inj hcount⟩

end Referents
