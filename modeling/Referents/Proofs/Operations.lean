import Referents.Balance
import Referents.Proofs.Soundness

/-!
# Runs of operations

Mutators build objects and change targets, and a collector discovers, balances,
precleans, gives up, processes and takes what is pending, in any order.  What
an operation may be asked for in which state is `Op.Allowed`.

* `Cycle.WellFormed` — every list is a chain of distinct references of its kind
  that ends in a link to itself and is as long as the list says, the pending
  chain ends at a null link, no reference is in two places, and the links of
  all other objects are null.
* `Op.plain_ok` — an allowed operation that asks no collector returns, and says what it
  leaves of the pending chain.
* `Op.run_ok` — every allowed operation returns, and keeps a cycle sound.
* `Runs.sound` — so does every run.
* `wellFormed_of_runs` — after every run from a new processor the lists are well
  formed, and no allowed operation fails.
-/

namespace Referents

variable {γ : Type}

/-! ### What a cycle shows -/

namespace Cycle

/-- The references on the list of a kind and queue. -/
def members (c : Cycle γ) (k : RefKind) (q : Nat) : List Handle :=
  match c.processor.list k q with
  | .ok l => (c.world.heap.chain l.head).members
  | .error _ => []

/-- The references that are pending. -/
def pending (c : Cycle γ) : List Handle :=
  (c.world.heap.chain c.world.heap.pendingHead).members

/-- The lists and the pending chain are what they should be. -/
structure WellFormed (c : Cycle γ) : Prop where
  list : ∀ k q, q < c.processor.queues → ∃ l, c.processor.list k q = .ok l ∧
    c.world.heap.chain l.head = ⟨c.members k q, true⟩ ∧ l.length = (c.members k q).length
  nodup : ∀ k q, (c.members k q).Nodup
  kind : ∀ k q, ∀ o ∈ c.members k q, c.world.heap.kindOf o = some k
  last : ∀ k q o, (c.members k q).getLast? = some o → c.world.heap.following o = some o
  pendingChain : c.world.heap.chain c.world.heap.pendingHead = ⟨c.pending, true⟩
  pendingNodup : c.pending.Nodup
  pendingLast : ∀ o, c.pending.getLast? = some o → c.world.heap.following o = none
  apart : ∀ k q k' q' o, o ∈ c.members k q → o ∈ c.members k' q' → k = k' ∧ q = q'
  free : ∀ k q, ∀ o ∈ c.members k q, o ∉ c.pending
  others : ∀ o, (∀ k q, o ∉ c.members k q) → o ∉ c.pending → c.world.heap.following o = none

end Cycle

/-- The last object of a chain links to its stop. -/
theorem Heap.Linked.getLast? {h : Heap} {stop : Option Handle} {ms : List Handle} {o : Handle}
    (hms : h.Linked stop ms) (ho : ms.getLast? = some o) : h.following o = stop := by
  obtain ⟨front, rfl⟩ := List.getLast?_eq_some_iff.mp ho
  exact (Heap.linked_append.mp hms).2.1

/-- The members of a list, as read off the heap, are those of the roster. -/
theorem Listing.members_eq {c : Cycle γ} {r : Roster} (hl : Listing c.processor c.world.heap r)
    (k : RefKind) (q : Nat) : c.members k q = r k q := by
  unfold Cycle.members
  by_cases hq : q < c.processor.queues
  · obtain ⟨l, hlist, hlists⟩ := hl.list_ok (k := k) hq
    rw [hlist]
    exact congrArg ChainView.members hlists.chain_eq
  · have hnone : (c.processor.listsOf k)[q]? = none := by
      rw [Array.getElem?_eq_none_iff, hl.size k]
      omega
    rw [Processor.list, hnone, hl.beyond (by omega)]

/-- The members of a registered list, as read off the heap, are those of the roster. -/
theorem Registered.members_eq {c : Cycle γ} {r : Roster} {ps : List Handle}
    (hr : Registered c.processor c.world.heap r ps) (k : RefKind) (q : Nat) :
    c.members k q = r k q := hr.listing.members_eq k q

namespace Sound

variable {c : Cycle γ} {r : Roster} {ps : List Handle}

/-- The members of the lists, as read off the heap, are those of the roster. -/
theorem members_eq (hs : Sound c r ps) (k : RefKind) (q : Nat) : c.members k q = r k q :=
  hs.registered.members_eq k q

/-- The pending references, as read off the heap, are those of the chain. -/
theorem pending_eq (hs : Sound c r ps) : c.pending = ps :=
  congrArg ChainView.members hs.registered.pending.chain_eq

/-- Where every list is empty, the roster is too. -/
theorem eq_none (hs : Sound c r ps) (hempty : ∀ k q, c.members k q = []) : r = Roster.none := by
  funext k q
  rw [← hs.members_eq, hempty k q]
  rfl

/-- The lists of a sound cycle are well formed. -/
theorem wellFormed (hs : Sound c r ps) : c.WellFormed := by
  have hr := hs.registered
  have hmembers := hs.members_eq
  have hpending := hs.pending_eq
  constructor
  case list =>
    intro k q hq
    obtain ⟨l, hlist, hl⟩ := hr.list_ok (k := k) hq
    rw [hmembers]
    exact ⟨l, hlist, hl.chain_eq, hl.length⟩
  case nodup =>
    intro k q
    rw [hmembers]
    exact (hr.spread k).nodup q
  case kind =>
    intro k q o ho
    rw [hmembers] at ho
    exact hr.kinds k q o ho
  case last =>
    intro k q o ho
    rw [hmembers] at ho
    have hmem := List.mem_of_getLast? ho
    obtain ⟨l, -, hl⟩ := hr.list_ok (k := k) (hr.lt_queues hmem)
    exact (hl.linked.getLast? ho).trans ho
  case pendingChain =>
    rw [hpending]
    exact hr.pending.chain_eq
  case pendingNodup =>
    rw [hpending]
    exact hr.pending.nodup
  case pendingLast =>
    intro o ho
    rw [hpending] at ho
    exact hr.pending.linked.getLast? ho
  case apart =>
    intro k q k' q' o ho ho'
    rw [hmembers] at ho ho'
    exact hr.apart ho ho'
  case free =>
    intro k q o ho
    rw [hmembers] at ho
    rw [hpending]
    exact hr.free k q o ho
  case others =>
    intro o hunlisted hfree
    rw [hpending] at hfree
    by_contra hlink
    rcases hs.covers o hlink with ⟨k, q, ho⟩ | ho
    · exact hunlisted k q (by rw [hmembers]; exact ho)
    · exact hfree ho

end Sound

/-! ### Operations -/

/-- A request to the table that may be refused: a reported error is no failure, but
there is no answer then. -/
def Step.attempt {α : Type} (x : Act γ α) : Step γ (Option α) := fun c =>
  match x c.world with
  | .ok a world => .ok (some a) { c with world }
  | .error (.error _) world => .ok none { c with world }
  | .error f world => .error f { c with world }

/-- The operations of mutators and collectors. -/
inductive Op (γ : Type) where
  | allocate (generation : Generation)
  | allocateReference (kind : Kind) (referent : Option Handle) (generation : Generation)
  | addEdge (source target : Handle)
  | clearReferent (o : Handle)
  | setReferent (o : Handle) (value : Option Handle)
  | stamp (o : Handle) (millis : Int)
  | advanceClock (now : Int)
  | usePolicy (policy : SoftPolicy)
  | setupPolicy (clearAll : Bool) (space : Occupancy)
  | setScope (scope : Scope)
  | setKnownAlive (alive : Option (Handle → Bool))
  | enable
  | disable
  | setMulti (multi : Bool)
  | setDegree (n : Nat)
  | discover (worker : Option Nat) (o : Handle) (k : RefKind)
  | balanceAll
  | preclean (hooks : Hooks γ) (check : YieldCheck γ) (readings : Readings)
  | abandon
  | process (hooks : Hooks γ) (readings : Readings) (pool : Option Pool)
  | takePending

namespace Op

/-- Runs an operation. -/
def run : Op γ → Pass γ Unit
  | .allocate generation =>
      Threaded.lift (discard (Step.attempt (Act.transform fun h => h.allocate generation)))
  | .allocateReference kind referent generation =>
      Threaded.lift (discard (Step.attempt (Act.transform fun h =>
        h.allocateReference kind referent generation)))
  | .addEdge source target =>
      Threaded.lift (discard (Step.attempt (Act.update fun h => h.addEdge source target)))
  | .clearReferent o => Threaded.lift (Step.onWorld (Act.update fun h => h.clearReferent o))
  | .setReferent o value =>
      Threaded.lift (Step.onWorld (Act.update fun h => h.setReferent o value))
  | .stamp o millis => Threaded.lift (Step.onWorld (Act.update fun h => h.setTimestamp o millis))
  | .advanceClock now =>
      setting fun p => { p with clock := (p.clock.advanceTo now).2 }
  | .usePolicy policy => setting fun p => p.withPolicy policy
  | .setupPolicy clearAll space => setting fun p => p.setupPolicy clearAll space
  | .setScope scope => setting fun p => { p with scope }
  | .setKnownAlive alive => setting fun p => { p with knownAlive := alive }
  | .enable => Threaded.lift (Step.updateProcessor Processor.enable)
  | .disable => setting Processor.disable
  | .setMulti multi => setting fun p => { p with multiDiscovery := multi }
  | .setDegree n => Threaded.lift (Step.updateProcessor fun p => p.setDegree n)
  | .discover worker o k => Threaded.lift (discard (Step.discover worker o (some k)))
  | .balanceAll => Threaded.lift (Step.withHeap Processor.balanceAll)
  | .preclean hooks check readings =>
      Threaded.lift (discard (Step.preclean hooks check readings))
  | .abandon => Threaded.lift (Step.withHeap Processor.abandon)
  | .process hooks readings pool => do
      modify fun t => { t with pool }
      discard (Pass.process hooks readings true)
  | .takePending => Threaded.lift (discard (Step.onWorld (Act.onHeap Heap.takePending)))
where
  /-- Changes a setting of the processor. -/
  setting (f : Processor → Processor) : Pass γ Unit :=
    Threaded.lift (Step.updateProcessor fun p => .ok (f p))

/-- What an operation may be asked for.  A cycle needs references with targets unless discovery
is concurrent, a pool that can start threads if it gets one, and room for the times of its
workers. -/
def Allowed (c : Cycle γ) : Op γ → Prop
  | .clearReferent o => c.world.heap.holds o = true
  | .setReferent o value => c.world.heap.holds o = true ∧ c.world.heap.holdsOption value = true
  | .stamp o millis => c.world.heap.holds o = true ∧ IsStamp millis
  | .advanceClock now => now < 2 ^ 63
  | .enable => c.processor.enabled = false ∧ ∀ k q, c.members k q = []
  | .setDegree n => 1 ≤ n ∧ n ≤ c.processor.queues
  | .discover worker o k => c.world.heap.kindOf o = some k ∧ o ∉ c.pending ∧
      (c.processor.multiDiscovery = true → worker.getD 0 < c.processor.queues)
  | .preclean hooks check _ => ∃ J, hooks.Unobtrusive J ∧ check.Respects J ∧ J c.world
  | .process hooks readings pool => (∃ J, hooks.Unobtrusive J ∧ J c.world) ∧
      (c.processor.config.concurrentDiscovery = false →
        ∀ k q, ∀ o ∈ c.members k q, c.world.heap.target o ≠ none) ∧ readings.now < 2 ^ 63 ∧
      (∀ p ∈ pool, p.CanStart) ∧ c.times.HasRoom c.processor.queues
  | _ => True

end Op

/-! ### Every operation -/

namespace Step

variable {c : Cycle γ}

/-- What is attempted may return. -/
theorem attempt_ok {α : Type} {x : Act γ α} {a : α} {w : World γ} (h : x c.world = .ok a w) :
    attempt x c = .ok (some a) { c with world := w } := by
  simp [attempt, h]

/-- What is attempted may be refused, and is then not done. -/
theorem attempt_error {α : Type} {x : Act γ α} {e : Error} {w : World γ}
    (h : x c.world = .error (.error e) w) :
    attempt x c = .ok none { c with world := w } := by
  simp [attempt, h]

end Step

/-- Whether an operation asks no collector. -/
def Op.Plain : Op γ → Prop
  | .preclean .. | .process .. => False
  | _ => True

/-- What such an operation leaves of the pending chain. -/
def Op.leaves (ps : List Handle) : Op γ → List Handle
  | .takePending => []
  | _ => ps

/-- A computation returns, and leaves a sound cycle with the pending chain `ps`. -/
def Soundly (x : Pass γ Unit) (t : Threaded (Cycle γ)) (ps : List Handle) : Prop :=
  ∃ u r, x t = .ok () u ∧ Tended t.state u.state r ps

namespace Soundly

variable {t : Threaded (Cycle γ)} {c : Cycle γ} {r : Roster} {ps : List Handle}

/-- A step that tends to a sound cycle does so in a pass. -/
theorem lift {x : Step γ Unit} (hrun : x t.state = .ok () c) (hs : Tended t.state c r ps) :
    Soundly (Threaded.lift x) t ps :=
  ⟨{ t with state := c }, r, Threaded.lift_ok hrun, hs⟩

/-- The answer of a step does not matter to soundness. -/
theorem discard {α : Type} {x : Step γ α} {a : α} (hrun : x t.state = .ok a c)
    (hs : Tended t.state c r ps) : Soundly (Threaded.lift (discard x)) t ps :=
  lift (map_ok (fun _ => ()) hrun) hs

/-- A setting that is neither a list, nor a degree or turn, nor a clock. -/
theorem setting {f : Processor → Processor} (hs : Sound t.state r ps)
    (hlists : (f t.state.processor).lists = t.state.processor.lists)
    (hconfig : (f t.state.processor).config = t.state.processor.config)
    (hdegree : (f t.state.processor).degree = t.state.processor.degree)
    (hturn : (f t.state.processor).turn = t.state.processor.turn)
    (hclock : IsStamp (f t.state.processor).clock.millis)
    (hsnapshot : (f t.state.processor).snapshot = t.state.processor.snapshot) :
    Soundly (Op.run.setting f) t ps :=
  lift (Step.updateProcessor_ok rfl)
    ⟨hs.of_setting hlists hconfig hdegree hturn hclock hsnapshot, .refl _, rfl⟩

/-- A request for a new object. -/
theorem allocate {α : Type} {f : Heap → Except Fault (α × Heap)} (kind : Kind)
    (referent : Option Handle) (gen : Generation) (hs : Sound t.state r ps)
    (hf : (∃ a o g, f t.state.world.heap = .ok (a, g) ∧
        Heap.Grown (.fresh kind gen referent) o t.state.world.heap g ∧
        t.state.world.heap.holdsOption referent = true) ∨
      ∃ e, f t.state.world.heap = .error (.error e)) :
    Soundly (Threaded.lift (Functor.discard (Step.attempt (Act.transform f)))) t ps := by
  rcases hf with ⟨a, o, g, hg, hgrown, ht⟩ | ⟨e, he⟩
  · obtain ⟨hkeeps, hsane⟩ := hs.push_fresh hgrown ht
    refine discard (Step.attempt_ok (Act.transform_ok hg))
      (hs.keeping hkeeps (fun p hp => ?_) hsane)
    rw [hgrown.marks, if_neg (hgrown.ne_of_holds hp)]
  · exact discard (Step.attempt_error (Act.transform_error he))
      (hs.keeping (.refl _) (fun _ _ => rfl) hs.sane)

/-- A reference gets another target. -/
theorem retarget {o : Handle} {v : Option Handle} (hs : Sound t.state r ps)
    (ho : t.state.world.heap.holds o = true) (hv : t.state.world.heap.holdsOption v = true) :
    Soundly (Threaded.lift (Step.onWorld (Act.update fun h => h.setReferent o v))) t ps :=
  lift (Step.onWorld_ok (Act.update_ok (Heap.setReferent_ok ho)))
    ⟨hs.retarget o hv, Heap.endures_retarget _ o v, rfl⟩

end Soundly

variable {t : Threaded (Cycle γ)} {r : Roster} {ps : List Handle}

/-- Every allowed operation that asks no collector returns from a sound state. -/
theorem Op.plain_ok (hs : Sound t.state r ps) {op : Op γ} (hplain : op.Plain)
    (ha : op.Allowed t.state) : Soundly op.run t (op.leaves ps) := by
  cases op with
  | allocate generation =>
      refine Soundly.allocate none none generation hs ?_
      refine (t.state.world.heap.push_cases _).imp ?_ fun hfull => ⟨_, hfull⟩
      exact fun ⟨o, g, hg⟩ => ⟨o, o, g, hg, Heap.push_grown hg, rfl⟩
  | allocateReference kind referent generation =>
      refine Soundly.allocate kind referent generation hs ?_
      refine (t.state.world.heap.allocateReference_cases kind referent generation).imp ?_ id
      intro hcreated
      obtain ⟨o, g, hg⟩ := hcreated
      obtain ⟨-, ht, hgrown⟩ := Heap.allocateReference_grown hg
      exact ⟨o, o, g, hg, hgrown, ht⟩
  | addEdge source target =>
      rcases t.state.world.heap.addEdge_cases source target with ⟨g, hg⟩ | ⟨e, he⟩
      · have hedged := Heap.addEdge_edged hg
        exact .discard (Step.attempt_ok (Act.update_ok hg))
          (hs.keeping hedged.keeps (fun _ _ => by rw [hedged.marks]) (hs.sane.edged hedged))
      · exact .discard (Step.attempt_error (Act.update_error he))
          (hs.keeping (.refl _) (fun _ _ => rfl) hs.sane)
  | clearReferent o => exact .retarget hs ha rfl
  | setReferent o value => exact .retarget hs ha.1 ha.2
  | stamp o millis =>
      obtain ⟨hheld, hpos, hlt⟩ := ha
      obtain ⟨g, hg, hstamped⟩ := Heap.setTimestamp_stamped millis hheld
      exact .lift (Step.onWorld_ok (Act.update_ok hg)) (hs.keeping (hstamped.keeps fun _ => rfl)
        (fun _ _ => by rw [hstamped.marks]) (hs.sane.stamped hstamped hpos hlt))
  | advanceClock now =>
      exact .setting hs rfl rfl rfl rfl (SoftClock.isStamp_advanceTo hs.clock ha) rfl
  | usePolicy policy => exact .setting hs rfl rfl rfl rfl hs.clock rfl
  | setupPolicy clearAll space =>
      cases clearAll with
      | true => exact .setting hs rfl rfl rfl rfl hs.clock rfl
      | false => exact .setting hs rfl rfl rfl rfl hs.clock rfl
  | setScope scope => exact .setting hs rfl rfl rfl rfl hs.clock rfl
  | setKnownAlive alive => exact .setting hs rfl rfl rfl rfl hs.clock rfl
  | enable =>
      obtain ⟨hoff, hempty⟩ := ha
      rw [hs.eq_none hempty] at hs
      obtain ⟨hrun, hs'⟩ := hs.enable_ok hoff
      exact .lift hrun ⟨hs', .refl _, rfl⟩
  | disable => exact .setting hs rfl rfl rfl rfl hs.clock rfl
  | setMulti multi => exact .setting hs rfl rfl rfl rfl hs.clock rfl
  | setDegree n =>
      exact .lift (Step.updateProcessor_ok (Processor.setDegree_ok ha.2))
        ⟨hs.of_processor rfl rfl ha.1 ha.2 ha.1 hs.clock hs.snapshot, .refl _, rfl⟩
  | discover worker o k =>
      obtain ⟨hk, hfree, hworker⟩ := ha
      rw [hs.pending_eq] at hfree
      obtain ⟨offer, c', r', -, hrun, hs'⟩ :=
        hs.discover_ok hk hworker fun hm => absurd hm hfree
      exact .discard hrun hs'.tended
  | balanceAll =>
      obtain ⟨c', r', hrun, hs'⟩ := hs.balanceAll_ok
      exact .lift hrun hs'.tended
  | preclean hooks check readings => exact hplain.elim
  | abandon =>
      obtain ⟨c', hrun, hs'⟩ := hs.abandon_ok
      exact .lift hrun hs'.tended
  | process hooks readings pool => exact hplain.elim
  | takePending =>
      obtain ⟨c', hrun, hs'⟩ := hs.takePending_ok
      exact .discard hrun hs'

/-- A processing cycle returns from a sound state. -/
theorem Op.process_ok (hs : Sound t.state r ps) {hooks : Hooks γ} {readings : Readings}
    {pool : Option Pool} (ha : (Op.process hooks readings pool).Allowed t.state) :
    ∃ u J pub, (Op.process hooks readings pool).run t = .ok () u ∧
      Worked J t.state u.state r Roster.none ps pub := by
  obtain ⟨⟨J, hh, hJ⟩, hnull, hnow, hpool, hroom⟩ := ha
  have hequipped : Pass.Equipped true { t with pool } := ⟨fun _ => hpool, hroom⟩
  obtain ⟨u, counts, pub, hrun, hworked, -⟩ :=
    Sound.process_ok (t := { t with pool }) hs hh hJ (fun hconcurrent k o ⟨q, ho⟩ =>
      hnull hconcurrent k q o (by rwa [hs.members_eq])) hnow hequipped
  exact ⟨u, J, pub, (bind_ok (modify_ok _ t)).trans (map_ok (fun _ => ()) hrun), hworked⟩

/-- Every allowed operation returns from a sound state, and leaves one. -/
theorem Op.run_ok (hs : Sound t.state r ps) {op : Op γ} (ha : op.Allowed t.state) :
    ∃ u r' ps', op.run t = .ok () u ∧ Sound u.state r' ps' := by
  by_cases hplain : op.Plain
  · obtain ⟨u, r', hrun, hs'⟩ := op.plain_ok hs hplain ha
    exact ⟨u, r', _, hrun, hs'.toSound⟩
  cases op with
  | preclean hooks check readings =>
      obtain ⟨J, hh, hcheck, hJ⟩ := ha
      obtain ⟨out, c', r', hrun, hresolved⟩ := hs.preclean_ok hh hJ hcheck readings
      exact ⟨{ t with state := c' }, r', _,
        Threaded.lift_ok (map_ok (fun _ => ()) hrun), hresolved.sound⟩
  | process hooks readings pool =>
      obtain ⟨u, J, pub, hrun, hworked⟩ := Op.process_ok hs ha
      exact ⟨u, _, _, hrun, hworked.sound⟩
  | _ => exact absurd trivial hplain

/-! ### Runs -/

/-- The operations `ops` lead from the state `t` to the state `u`, each of them
allowed where it stands. -/
inductive Runs : List (Op γ) → Threaded (Cycle γ) → Threaded (Cycle γ) → Prop
  | nil (t : Threaded (Cycle γ)) : Runs [] t t
  | cons {op : Op γ} {ops : List (Op γ)} {t u v : Threaded (Cycle γ)} :
      op.Allowed t.state → op.run t = .ok () u → Runs ops u v → Runs (op :: ops) t v

/-- A run of allowed operations ends in a sound state. -/
theorem Runs.sound {ops : List (Op γ)} {u : Threaded (Cycle γ)} (hruns : Runs ops t u)
    (hs : Sound t.state r ps) : ∃ r' ps', Sound u.state r' ps' := by
  induction hruns generalizing r ps with
  | nil => exact ⟨r, ps, hs⟩
  | cons ha hrun _ ih =>
      obtain ⟨v, r', ps', hrun', hs'⟩ := Op.run_ok hs ha
      rw [hrun] at hrun'
      cases hrun'
      exact ih hs'

/-- A processor is made from every valid configuration. -/
theorem Processor.create_ok {config : Config} (hvalid : config.validate = .ok ()) (scope : Scope)
    (clock : SoftClock) :
    ∃ p, Processor.create config scope clock = .ok p ∧ p.config = config ∧
      p.lists = .replicate (Array.replicate p.queues .empty) ∧ p.enabled = false ∧
      p.degree = config.processingDegree ∧ p.turn = 0 ∧ p.clock = clock ∧
      p.snapshot = clock.millis ∧ p.multiDiscovery = decide (1 < config.discoveryDegree) ∧
      p.policy = .lru config.softBasis config.softMillisPerMegabyte ∧ p.clearAll = false := by
  unfold Processor.create
  rw [hvalid]
  exact ⟨_, rfl, rfl, rfl, rfl, rfl, rfl, rfl, rfl, rfl, rfl, rfl⟩

/-- A new processor over a table without chains is sound. -/
theorem sound_of_create {config : Config} (hvalid : config.validate = .ok ()) {scope : Scope}
    {clock : SoftClock} (hclock : IsStamp clock.millis) {c : Cycle γ}
    (hcreate : Processor.create config scope clock = .ok c.processor)
    (hsane : c.world.heap.Sane) (hunlinked : ∀ o, c.world.heap.following o = none)
    (hpending : c.world.heap.pendingHead = none) : Sound c Roster.none [] := by
  obtain ⟨p, hcreate', hconfig, hlists, -, hdegree, hturn, hpclock, hsnapshot, -⟩ :=
    Processor.create_ok hvalid scope clock
  rw [hcreate] at hcreate'
  cases hcreate'
  obtain ⟨hpos, -, -⟩ := (Config.validate_eq_ok_iff config).mp hvalid
  constructor
  case registered =>
    exact .of_empty hlists ⟨hpending, trivial, List.nodup_nil, fun _ ho => (nomatch ho)⟩
  case covers => exact fun o ho => absurd (hunlinked o) ho
  case sane => exact hsane
  case fresh => exact fun _ ⟨_, ho⟩ => nomatch ho
  case positive =>
    rw [hdegree]
    exact hpos
  case degree =>
    rw [hdegree, Processor.queues, hconfig]
    exact Nat.le_max_left _ _
  case turn =>
    rw [hturn, hdegree]
    exact hpos
  case clock =>
    rw [hpclock]
    exact hclock
  case snapshot =>
    rw [hsnapshot]
    exact hclock

/-- After every run of operations from a new processor, over a table whose
objects are on no list and no chain, all lists and the pending chain are well
formed.  And no allowed operation fails there: it returns, and leaves them well
formed again. -/
theorem wellFormed_of_runs {config : Config} (hvalid : config.validate = .ok ()) (scope : Scope)
    {clock : SoftClock} (hclock : IsStamp clock.millis) :
    ∃ p, Processor.create config scope clock = .ok p ∧
      ∀ t : Threaded (Cycle γ), t.state.processor = p → t.state.world.heap.Sane →
        (∀ o, t.state.world.heap.following o = none) →
        t.state.world.heap.pendingHead = none →
        ∀ (ops : List (Op γ)) (u : Threaded (Cycle γ)), Runs ops t u →
          u.state.WellFormed ∧ ∀ op : Op γ, op.Allowed u.state →
            ∃ v, op.run u = .ok () v ∧ v.state.WellFormed := by
  obtain ⟨p, hcreate, -⟩ := Processor.create_ok hvalid scope clock
  refine ⟨p, hcreate, fun t hp hsane hunlinked hpending ops u hruns => ?_⟩
  rw [← hp] at hcreate
  obtain ⟨r, ps, hs⟩ :=
    hruns.sound (sound_of_create hvalid hclock hcreate hsane hunlinked hpending)
  refine ⟨hs.wellFormed, fun op ha => ?_⟩
  obtain ⟨v, r', ps', hrun, hs'⟩ := Op.run_ok hs ha
  exact ⟨v, hrun, hs'.wellFormed⟩

/-! ### A run -/

/-- The state that an operation leaves. -/
def Op.after (op : Op γ) (t : Threaded (Cycle γ)) : Threaded (Cycle γ) :=
  match op.run t with
  | .ok _ u => u
  | .error _ u => u

/-- Whether an operation returns. -/
def Op.returns (op : Op γ) (t : Threaded (Cycle γ)) : Bool :=
  match op.run t with
  | .ok _ _ => true
  | .error _ _ => false

/-- Whether an operation returns can be computed, and then so can the state after it. -/
theorem Op.run_of_returns {op : Op γ} {t : Threaded (Cycle γ)} (h : op.returns t = true) :
    op.run t = .ok () (op.after t) := by
  unfold returns at h
  unfold after
  split at h
  · next u hrun => rw [hrun]
  · cases h

/-- A configuration with two queues. -/
def pairConfig : Config := { processingDegree := 2, hostProcessors := 4 }

/-- A new processor over a table with a plain object and a weak reference to it. -/
def pairStart : Threaded (Cycle Marker) where
  state := {
    world := ⟨⟨(Table.empty.push (.fresh none .young none)).push
      (.fresh (some .weak) .young (some (.low 0))), .null⟩, {}⟩
    processor := {
      config := pairConfig, scope := .wholeHeap, knownAlive := none, enabled := false
      multiDiscovery := false, degree := 2, turn := 0
      lists := .replicate #[.empty, .empty], clock := ⟨0⟩, snapshot := 0
      policy := .lru .maxHeap 1000, clearAll := false, journal := { config := {} } }
    times := .create 1
    sink := {} }

/-- The weak reference is discovered, its list balanced, and the cycle publishes it. -/
def pairOps : List (Op Marker) :=
  [.enable, .discover none (.low 1) .weak, .balanceAll,
    .process Marker.hooks {} (some { name := "pair", maxWorkers := 2, activeWorkers := 2 })]

/-- The example's processor is as it is created. -/
theorem pair_created :
    Processor.create pairConfig .wholeHeap ⟨0⟩ = .ok pairStart.state.processor := rfl

/-- The example's heap is in order. -/
theorem pair_sane : pairStart.state.world.heap.Sane :=
  .of_slots (by decide) (by decide) (by decide)

/-- Nothing is linked in it. -/
theorem pair_unlinked (o : Handle) : pairStart.state.world.heap.following o = none :=
  Heap.forall_link (P := (· = none)) .discovered rfl (by decide)

/-- The example starts in a sound state. -/
theorem pair_sound : Sound pairStart.state Roster.none [] :=
  sound_of_create rfl (by decide) pair_created pair_sane pair_unlinked (by decide)

/-- In a sound cycle a listed reference points to something if all references do. -/
theorem Sound.target_ne_none {c : Cycle γ} (hs : Sound c r ps)
    (hslots : ∀ s ∈ c.world.heap.slots.toList, s.kind = none ∨ s.referent.target ≠ none)
    {k : RefKind} {q : Nat} {o : Handle} (ho : o ∈ c.members k q) :
    c.world.heap.target o ≠ none := by
  have hkind := hs.wellFormed.kind k q o ho
  obtain ⟨s, hslot⟩ := Heap.holds_iff_slot.mp (Heap.holds_of_kindOf hkind)
  have hsome : s.kind = some k := by
    simpa [Heap.kindOf, Heap.traits, hslot, Slot.traits] using hkind
  have htarget : c.world.heap.target o = s.referent.target := by
    simp [Heap.link, hslot, Slot.get]
  rw [htarget]
  exact (hslots s (Heap.mem_slots hslot)).resolve_left (by rw [hsome]; simp)

/-- Where nothing waits and nothing is marked, a marker can go to work. -/
theorem Sound.marking_of_unmarked {c : Cycle Marker} (hs : Sound c r ps)
    (hresting : c.world.collector.queue.items = [])
    (hslots : ∀ s ∈ c.world.heap.slots.toList, s.marked = false) : Marker.Marking c.world := by
  refine .of_closed hs.sane.edges hresting fun o ho => ?_
  obtain ⟨s, hslot⟩ := Heap.holds_iff_slot.mp (Heap.holds_of_marks ho)
  have hmarked : s.marked = true := by simpa [Heap.marks, hslot] using ho
  rw [hslots s (Heap.mem_slots hslot)] at hmarked
  cases hmarked

/-- The example's operations are allowed, return, and leave one reference pending. -/
theorem pair_runs : ∃ u, Runs pairOps pairStart u ∧ u.state.pending = [.low 1] := by
  obtain ⟨t₃, ht₃⟩ : ∃ t, t = Op.balanceAll.after ((Op.discover none (.low 1) .weak).after
      (Op.enable.after pairStart)) := ⟨_, rfl⟩
  have hdiscovered : ∀ ops u, Runs ops t₃ u →
      Runs (.enable :: .discover none (.low 1) .weak :: .balanceAll :: ops) pairStart u := by
    intro ops u hruns
    rw [ht₃] at hruns
    refine .cons ⟨rfl, fun k q => ?_⟩ (Op.run_of_returns (by decide +kernel)) (.cons
      ⟨by decide +kernel, by decide +kernel, by decide +kernel⟩
      (Op.run_of_returns (by decide +kernel))
      (.cons trivial (Op.run_of_returns (by decide +kernel)) hruns))
    rw [pair_sound.members_eq]
    rfl
  obtain ⟨r, ps, hs⟩ := (hdiscovered [] t₃ (.nil t₃)).sound pair_sound
  have hmarking : Marker.Marking t₃.state.world :=
    hs.marking_of_unmarked (by rw [ht₃]; decide +kernel) (by rw [ht₃]; decide +kernel)
  have hpointing : ∀ s ∈ t₃.state.world.heap.slots.toList,
      s.kind = none ∨ s.referent.target ≠ none := by
    rw [ht₃]
    decide +kernel
  have hroom : t₃.state.times.HasRoom t₃.state.processor.queues := by
    rw [ht₃]
    decide +kernel
  refine ⟨_, hdiscovered _ _ (.cons ⟨⟨_, Marker.unobtrusive _ _, hmarking, rfl⟩, fun _ k q o ho =>
    hs.target_ne_none hpointing ho, by decide, by decide, hroom⟩ (Op.run_of_returns ?_)
    (.nil _)), ?_⟩
  · rw [ht₃]
    decide +kernel
  · rw [ht₃]
    decide +kernel

/-- After this run the lists are well formed, and the weak reference can be taken. -/
theorem wellFormed_of_pair : pairConfig.validate = .ok () ∧ IsStamp 0 ∧
    ∃ u, Runs pairOps pairStart u ∧ u.state.WellFormed ∧ u.state.pending = [.low 1] ∧
      ∃ v, Op.takePending.run u = .ok () v ∧ v.state.WellFormed := by
  have hvalid : pairConfig.validate = .ok () := rfl
  have hclock : IsStamp (SoftClock.mk 0).millis := by decide
  obtain ⟨p, hcreate, hall⟩ := wellFormed_of_runs (γ := Marker) hvalid .wholeHeap hclock
  obtain ⟨u, hruns, hpending⟩ := pair_runs
  rw [pair_created] at hcreate
  obtain ⟨hwell, hnext⟩ := hall pairStart (Except.ok.inj hcreate) pair_sane pair_unlinked
    (by decide) pairOps u hruns
  exact ⟨hvalid, hclock, u, hruns, hwell, hpending, hnext .takePending trivial⟩

end Referents
