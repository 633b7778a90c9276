import Mathlib.Algebra.Order.Floor.Div
import Mathlib.Data.Nat.ModEq
import Referents.Proofs.DiscoveryHistory

/-!
# References are dealt out in turn

One worker discovers and several will process: then the references that are put
on lists go to the active queues in turn, whatever their kinds, and whatever is
declined or offered again in between.  The turn starts anew whenever the degree
is set.

* `DegreeSet` — nothing was discovered since the degree was set.
* `Dealt` — offers that are made one after the other, with their log.
* `Dealing.offer_ok`, `Dealing.exists_dealt` — one offer, and a whole sequence.
* `countP_range_mod` — how many numbers below another have a given remainder.
* `dealt_round_robin` — the queue of every entry of the log, and what each
  queue receives.
-/

namespace Referents

variable {γ : Type} {c d e : Cycle γ} {r : Roster} {k n q : Nat} {p p' : Processor}

/-! ### Setting the degree -/

/-- The degree was set to `k` when the processor was made or later, and nothing was
dealt out since. -/
inductive DegreeSet (k : Nat) : Processor → Prop
  | created {config : Config} {scope : Scope} {clock : SoftClock} {p : Processor}
      (create : Processor.create config scope clock = .ok p)
      (degree : config.processingDegree = k) : DegreeSet k p
  | set {p p' : Processor} (set : p.setDegree k = .ok p') : DegreeSet k p'
  /-- Another setting was changed. -/
  | kept {p p' : Processor} (past : DegreeSet k p) (config : p'.config = p.config)
      (degree : p'.degree = p.degree) (turn : p'.turn = p.turn) : DegreeSet k p'

theorem Processor.created_degree {config : Config} {scope : Scope} {clock : SoftClock}
    (hcreate : Processor.create config scope clock = .ok p) :
    p.degree = config.processingDegree ∧ p.turn = 0 ∧ p.degree ≤ p.queues := by
  cases hvalid : config.validate with
  | error e =>
      rw [Processor.create, hvalid] at hcreate
      cases hcreate
  | ok u =>
      obtain ⟨p', hcreate', hconfig, -, -, hdegree, hturn, -⟩ :=
        Processor.create_ok hvalid scope clock
      rw [hcreate] at hcreate'
      cases hcreate'
      refine ⟨hdegree, hturn, ?_⟩
      rw [hdegree, Processor.queues, hconfig]
      exact Nat.le_max_left _ _

/-- The first turn is that of the first queue. -/
theorem DegreeSet.turn_eq (hset : DegreeSet k p) :
    p.degree = k ∧ p.turn = 0 ∧ k ≤ p.queues := by
  induction hset with
  | created create degree =>
      obtain ⟨hdegree, hturn, hle⟩ := Processor.created_degree create
      rw [degree] at hdegree
      exact ⟨hdegree, hturn, hdegree ▸ hle⟩
  | set set =>
      obtain ⟨hle, rfl⟩ := Processor.setDegree_eq set
      exact ⟨rfl, rfl, hle⟩
  | kept past config degree turn ih =>
      obtain ⟨hdegree, hturn, hle⟩ := ih
      refine ⟨degree.trans hdegree, turn.trans hturn, ?_⟩
      rwa [Processor.queues, config, ← Processor.queues]

/-! ### Offers -/

/-- A reference that is offered, with the worker that does so. -/
structure Proposal where
  worker : Option Nat
  obj : Handle
  kind : RefKind

/-- Offers a reference. -/
def Proposal.run (x : Proposal) : Step γ Bool := Step.discover x.worker x.obj (some x.kind)

/-- Offers were made one after the other and got answers; the log has the references
that were put on lists. -/
inductive Dealt : Cycle γ → List Proposal → List Bool → List Entry → Cycle γ → Prop
  | nil (c : Cycle γ) : Dealt c [] [] [] c
  /-- An offer that was declined or repeated leaves every list as it was. -/
  | passed {c d e : Cycle γ} {x : Proposal} {xs : List Proposal} {answer : Bool}
      {answers : List Bool} {log : List Entry} (run : x.run c = .ok answer d)
      (members : ∀ kind q, d.members kind q = c.members kind q)
      (rest : Dealt d xs answers log e) : Dealt c (x :: xs) (answer :: answers) log e
  /-- A reference that was put on a list is its head, and no other list changed. -/
  | listed {c d e : Cycle γ} {x : Proposal} {xs : List Proposal} {answers : List Bool}
      {log : List Entry} (q : Nat) (run : x.run c = .ok true d)
      (head : d.members x.kind q = x.obj :: c.members x.kind q)
      (others : ∀ kind q', ¬ (kind = x.kind ∧ q' = q) →
        d.members kind q' = c.members kind q')
      (rest : Dealt d xs answers log e) :
      Dealt c (x :: xs) (true :: answers) (⟨x.obj, x.kind, q⟩ :: log) e

theorem Dealt.mapM_eq {xs : List Proposal} {answers : List Bool} {log : List Entry}
    (hd : Dealt c xs answers log e) : xs.mapM Proposal.run c = .ok answers e := by
  induction hd with
  | nil c => rfl
  | passed run members rest ih =>
      rw [List.mapM_cons]
      exact (bind_ok run).trans ((bind_ok ih).trans rfl)
  | listed q run head others rest ih =>
      rw [List.mapM_cons]
      exact (bind_ok run).trans ((bind_ok ih).trans rfl)

/-- Among `k` active queues `n` references were dealt out in turn. -/
structure Dealing (k n : Nat) (c : Cycle γ) (r : Roster) : Prop where
  listing : Listing c.processor c.world.heap r
  timely : c.processor.Timely c.world.heap
  multi : c.processor.isMulti = true
  serial : c.processor.multiDiscovery = false
  degree : c.processor.degree = k
  turn : c.processor.turn = n % k
  le : k ≤ c.processor.queues

namespace Dealing

theorem pos (hd : Dealing k n c r) : 0 < k := by
  have hmulti := hd.multi
  rw [Processor.isMulti, hd.degree, Bool.and_eq_true, decide_eq_true_eq] at hmulti
  omega

/-- The next reference goes to the queue whose turn it is. -/
theorem route_eq (hd : Dealing k n c r) (worker : Option Nat) :
    c.processor.route worker = n % k := by
  simp [Processor.route, hd.serial, hd.multi, hd.turn]

theorem turnAfter_eq (hd : Dealing k n c r) : c.processor.turnAfter = (n + 1) % k := by
  simp [Processor.turnAfter, hd.serial, hd.multi, hd.turn, hd.degree]

theorem congr (hd : Dealing k n c r) (hheap : d.world.heap = c.world.heap)
    (hprocessor : d.processor = c.processor) : Dealing k n d r where
  listing := by rw [hprocessor, hheap]; exact hd.listing
  timely := by rw [hprocessor, hheap]; exact hd.timely
  multi := by rw [hprocessor]; exact hd.multi
  serial := by rw [hprocessor]; exact hd.serial
  degree := by rw [hprocessor]; exact hd.degree
  turn := by rw [hprocessor]; exact hd.turn
  le := by rw [hprocessor]; exact hd.le

/-- An offer returns, and either changes nothing or puts the reference at the head of
the list of its kind in the queue whose turn it is. -/
theorem offer_ok (hd : Dealing k n c r) {x : Proposal}
    (hx : c.world.heap.kindOf x.obj = some x.kind) :
    ∃ accepted d, x.run c = .ok accepted d ∧
      d.world.heap.traits = c.world.heap.traits ∧
      (Dealing k n d r ∨ accepted = true ∧
        Dealing k (n + 1) d (r.set x.kind (n % k) (x.obj :: r x.kind (n % k)))) := by
  have hpos := hd.pos
  have hturn : c.processor.turn < c.processor.degree := by
    rw [hd.turn, hd.degree]
    exact Nat.mod_lt n hpos
  obtain ⟨offer, hdiscover, hoffered⟩ : ∃ offer,
      c.processor.discover c.world.heap c.sink x.worker x.obj (some x.kind) = .ok offer ∧
      c.processor.Offered c.world.heap r x.worker x.obj x.kind offer :=
    Processor.discover_ok hd.listing hd.timely hx (by have := hd.le; omega)
      (hd.degree ▸ hd.le) (lt_max_of_lt_left hturn)
      (fun hmulti => by rw [hd.serial] at hmulti; cases hmulti)
  refine ⟨offer.accepted, _, Step.discover_ok hdiscover, ?_⟩
  cases hoffered with
  | declined refused processor heap why =>
      exact ⟨by rw [heap], .inl (hd.congr heap processor)⟩
  | known answer linked active processor heap wanted =>
      exact ⟨by rw [heap], .inl (hd.congr heap processor)⟩
  | listed q queue taken active free listing relinks setup degree turned turn wanted =>
      have hconfig := Processor.config_eq_of_setup setup
      rw [hd.route_eq] at queue
      subst queue
      refine ⟨relinks.objects.traits, .inr ⟨taken, ?_⟩⟩
      constructor
      case listing => exact listing
      case timely =>
        intro o t ht
        have hsnapshot : offer.processor.snapshot = c.processor.snapshot :=
          show offer.processor.setup.snapshot = c.processor.setup.snapshot by rw [setup]
        rw [hsnapshot]
        exact hd.timely o t (by rw [← relinks.objects.traits]; exact ht)
      case multi =>
        show offer.processor.isMulti = true
        rw [Processor.isMulti, hconfig, degree]
        exact hd.multi
      case serial =>
        show offer.processor.setup.multiDiscovery = false
        rw [setup]
        exact hd.serial
      case degree => exact degree.trans hd.degree
      case turn => exact turned.trans hd.turnAfter_eq
      case le =>
        show k ≤ offer.processor.queues
        rw [Processor.queues, hconfig]
        exact hd.le

/-- A sequence of offers is dealt out from where the last one ended. -/
theorem exists_dealt (hd : Dealing k n c r) {xs : List Proposal}
    (hxs : ∀ x ∈ xs, c.world.heap.kindOf x.obj = some x.kind) :
    ∃ answers log e, Dealt c xs answers log e ∧ Dealing k (n + log.length) e (r.record log) ∧
      ∀ i x, log[i]? = some x → x.queue = (n + i) % k := by
  induction xs generalizing n c r with
  | nil => exact ⟨[], [], c, .nil c, hd, by simp⟩
  | cons x xs ih =>
      obtain ⟨accepted, d, hrun, htraits, hoffer⟩ := hd.offer_ok (hxs x (by simp))
      have hxs' : ∀ y ∈ xs, d.world.heap.kindOf y.obj = some y.kind := fun y hy => by
        rw [Heap.kindOf_congr htraits]
        exact hxs y (List.mem_cons_of_mem x hy)
      rcases hoffer with hd' | ⟨rfl, hd'⟩
      · obtain ⟨answers, log, e, hdealt, hend, hqueues⟩ := ih hd' hxs'
        refine ⟨accepted :: answers, log, e, .passed hrun (fun kind q => ?_) hdealt, hend,
          hqueues⟩
        rw [hd'.listing.members_eq, hd.listing.members_eq]
      · obtain ⟨answers, log, e, hdealt, hend, hqueues⟩ := ih hd' hxs'
        refine ⟨true :: answers, ⟨x.obj, x.kind, n % k⟩ :: log, e,
          .listed (n % k) hrun ?_ (fun kind q hne => ?_) hdealt, ?_, ?_⟩
        · rw [hd'.listing.members_eq, hd.listing.members_eq, Roster.set_self]
        · rw [hd'.listing.members_eq, hd.listing.members_eq, Roster.set_of_ne _ _ hne]
        · rw [List.length_cons, Nat.add_comm log.length, ← Nat.add_assoc]
          exact hend
        · intro i y hy
          cases i with
          | zero =>
              obtain rfl := Option.some.inj hy
              rfl
          | succ i =>
              rw [hqueues i y hy, Nat.add_assoc, Nat.add_comm 1 i]

end Dealing

/-! ### Shares -/

/-- One more number raises a rounded up share just if it has the remainder of the share. -/
theorem ceilDiv_succ_sub (hq : q < k) (n : Nat) :
    (n + 1 - q) ⌈/⌉ k = (n - q) ⌈/⌉ k + if n % k = q then 1 else 0 := by
  have hpos : 0 < k := by omega
  simp only [Nat.ceilDiv_eq_add_pred_div]
  by_cases hn : n < q
  · have hmod : n % k = n := Nat.mod_eq_of_lt (by omega)
    rw [show n + 1 - q = 0 by omega, show n - q = 0 by omega, hmod, if_neg (by omega),
      Nat.add_zero]
  · have hdvd : k ∣ n - q + k - 1 + 1 ↔ n % k = q := by
      rw [show n - q + k - 1 + 1 = n - q + k by omega, Nat.dvd_add_self_right,
        ← Nat.modEq_iff_dvd' (by omega), Nat.ModEq, Nat.mod_eq_of_lt hq, eq_comm]
    rw [show n + 1 - q + k - 1 = n - q + k - 1 + 1 by omega, Nat.succ_div]
    simp only [hdvd]

/-- Of the numbers below `n` every `k`-th one has the remainder `q`, the first of them `q`. -/
theorem countP_range_mod (hq : q < k) (n : Nat) :
    ((List.range n).countP fun i => i % k = q) = (n - q) ⌈/⌉ k := by
  induction n with
  | zero => simp
  | succ n ih =>
      rw [List.range_succ, List.countP_append, ih, ceilDiv_succ_sub hq]
      simp [List.countP_singleton]

/-- A log whose entries went to the queues in turn. -/
theorem countP_queue {log : List Entry} (hk : 0 < k)
    (hlog : ∀ i x, log[i]? = some x → x.queue = i % k) (q : Nat) :
    (log.countP fun x => x.queue = q) = if q < k then (log.length - q) ⌈/⌉ k else 0 := by
  have hqueues : log.map Entry.queue = (List.range log.length).map (· % k) := by
    apply List.ext_getElem?
    intro i
    by_cases hi : i < log.length
    · simp [hi, hlog i log[i] (List.getElem?_eq_getElem hi)]
    · simp [hi]
  have hcount : (log.countP fun x => x.queue = q) =
      (List.range log.length).countP fun i => i % k = q := by
    calc (log.countP fun x => x.queue = q)
        = (log.map Entry.queue).countP fun i => i = q := by rw [List.countP_map]; rfl
      _ = (List.range log.length).countP fun i => i % k = q := by
          rw [hqueues, List.countP_map]
          rfl
  rw [hcount]
  split
  · next hq => exact countP_range_mod hq _
  · next hq =>
      refine List.countP_eq_zero.mpr fun i _ => ?_
      have hlt := Nat.mod_lt i hk
      simp only [decide_eq_true_eq]
      omega

/-- After the degree was set to `k`, the references that are put on lists go to the first
`k` queues in turn, from the first queue on.  Each of these receives its share, rounded up
for those that come first, and the others receive none. -/
theorem dealt_round_robin (hk : 2 ≤ k) (hset : DegreeSet k c.processor)
    (hparallel : c.processor.config.parallelProcessing = true)
    (hserial : c.processor.multiDiscovery = false)
    (hl : Listing c.processor c.world.heap r) (ht : c.processor.Timely c.world.heap)
    (xs : List Proposal) (hxs : ∀ x ∈ xs, c.world.heap.kindOf x.obj = some x.kind) :
    ∃ answers log e, xs.mapM Proposal.run c = .ok answers e ∧ Dealt c xs answers log e ∧
      (∀ kind q, e.members kind q = (routed log kind q).reverse ++ c.members kind q) ∧
      (∀ i x, log[i]? = some x → x.queue = i % k) ∧
      (∀ x ∈ log, x.queue < c.processor.queues) ∧
      ∀ q, (log.countP fun x => x.queue = q) =
        if q < k then (log.length - q) ⌈/⌉ k else 0 := by
  obtain ⟨hdegree, hturn, hle⟩ := hset.turn_eq
  have hstart : Dealing k 0 c r := by
    refine ⟨hl, ht, ?_, hserial, hdegree, by rw [hturn, Nat.zero_mod], hle⟩
    rw [Processor.isMulti, hparallel, hdegree, Bool.true_and, decide_eq_true_eq]
    omega
  obtain ⟨answers, log, e, hdealt, hend, hqueues⟩ := hstart.exists_dealt hxs
  simp only [Nat.zero_add] at hqueues
  refine ⟨answers, log, e, hdealt.mapM_eq, hdealt, fun kind q => ?_, hqueues, fun x hx => ?_,
    countP_queue (by omega) hqueues⟩
  · rw [hend.listing.members_eq, Roster.record_eq, hl.members_eq]
  · obtain ⟨i, hi⟩ := List.mem_iff_getElem?.mp hx
    have hlt := Nat.mod_lt i (show 0 < k by omega)
    rw [hqueues i x hi]
    omega

/-- Between the first two references and the third, one is declined and one is repeated. -/
def fiveProposals : List Proposal :=
  [⟨none, .low 1, .weak⟩, ⟨none, .low 5, .soft⟩, ⟨some 7, .low 2, .weak⟩,
    ⟨none, .low 1, .weak⟩, ⟨none, .low 4, .final⟩]

theorem five_degreeSet : DegreeSet 2 fiveCycle.processor :=
  (DegreeSet.created pair_created rfl).kept rfl rfl rfl

/-- Of two active queues the first one receives the first and the third reference. -/
theorem dealt_round_robin_five :
    DegreeSet 2 fiveCycle.processor ∧
    ∃ log e, fiveProposals.mapM Proposal.run fiveCycle =
        .ok [true, false, true, true, true] e ∧
      (∀ i x, log[i]? = some x → x.queue = i % 2) ∧
      (∀ kind q, e.members kind q = (routed log kind q).reverse ++ fiveCycle.members kind q) ∧
      e.members .weak 0 = [.low 1] ∧ e.members .weak 1 = [.low 2] ∧
      e.members .final 0 = [.low 4] := by
  obtain ⟨answers, log, e, hrun, -, hmembers, hqueues, -, -⟩ :=
    dealt_round_robin (by decide) five_degreeSet rfl rfl five_sound.registered.listing
      five_sound.timely fiveProposals (by decide)
  obtain ⟨answers', e', hrun', hend⟩ := exists_of_run (x := fiveProposals.mapM Proposal.run)
    (s := fiveCycle)
    (P := fun answers e => answers = [true, false, true, true, true] ∧
      e.members .weak 0 = [.low 1] ∧ e.members .weak 1 = [.low 2] ∧
      e.members .final 0 = [.low 4]) (by decide +kernel)
  rw [hrun] at hrun'
  cases hrun'
  obtain ⟨rfl, hfirst, hsecond, hthird⟩ := of_decide_eq_true hend
  exact ⟨five_degreeSet, log, e, hrun, hqueues, hmembers, hfirst, hsecond, hthird⟩

end Referents
