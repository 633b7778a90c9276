import Referents.Proofs.Execution

/-!
# The scopes of worker ids

A thread runs bodies under ids of their own and hands tasks to a pool, whose
units run under their indices; both nest to any depth, and any of them may
fail.  The thread notes its worker id wherever it looks at it: on its way, when
a unit begins, before a task, before it fails, and after every body and task,
also while a failure passes by.

The id noted is that of the innermost body or unit around, and when all is over
it is the one from before.  Up to the first failure nothing is skipped and
nothing happens twice; from there on bodies and tasks are only left, and the
caller gets that failure.

* `Errand` — a tree of bodies and tasks; `Errand.run` runs it, and
  `Errand.spots` lists where it gets to if nothing fails.
* `firstFault`, `uptoFault` — the first failure on such a list, and what
  precedes it.
* `Shows` — what is noted on the way from one state to another;
  `Shows.append`, `Shows.cut` — one part follows another, or is kept from it.
* `runEach_tells`, `runTask_tells` — the units of a task.
* `worker_ids_are_scoped` — the worker ids, the failure and the counts of a tree.
-/

namespace Referents

/-- When a thread looks at its worker id. -/
inductive Moment where
  /-- In the course of a body or a unit. -/
  | amid
  /-- A unit begins. -/
  | unit
  /-- A task of `n` units is about to begin. -/
  | task (n : Nat)
  /-- A body or a unit is about to fail. -/
  | failing (f : Fault)
  /-- A body or a task has just ended, in one way or the other. -/
  | after
deriving DecidableEq

namespace Moment

/-- How many units a pool has to count now, if it has to count a task. -/
def counted : Moment → Option Nat
  | task n => if n = 0 then none else some n
  | _ => none

/-- What fails now, if tasks are refused in the given way. -/
def fault (refused : Nat → Option Fault) : Moment → Option Fault
  | task n => refused n
  | failing f => some f
  | _ => none

end Moment

/-- A moment, and the ids of the bodies and units around it, the innermost first. -/
structure Spot where
  moment : Moment
  scopes : List Nat
deriving DecidableEq

/-- A spot and the worker id that was found there. -/
structure Sight where
  spot : Spot
  worker : Option Nat
deriving DecidableEq

/-- The tasks that a pool counts, by their units. -/
def counted (log : List Sight) : List Nat := log.filterMap fun s => s.spot.moment.counted

/-- The counted tasks of two logs in a row. -/
@[simp] theorem counted_append (log log' : List Sight) :
    counted (log ++ log') = counted log ++ counted log' := List.filterMap_append

section Faults

variable {refused : Nat → Option Fault} {spots : List Spot}

/-- The first failure on a list of spots. -/
def firstFault (refused : Nat → Option Fault) (spots : List Spot) : Option Fault :=
  spots.findSome? fun s => s.moment.fault refused

/-- The spots up to the first failure, with the one where it happens. -/
def uptoFault (refused : Nat → Option Fault) : List Spot → List Spot
  | [] => []
  | s :: spots =>
      match s.moment.fault refused with
      | none => s :: uptoFault refused spots
      | some _ => [s]

/-- The first failure on two lists of spots in a row. -/
@[simp] theorem firstFault_append (refused : Nat → Option Fault) (spots spots' : List Spot) :
    firstFault refused (spots ++ spots') =
      (firstFault refused spots).or (firstFault refused spots') := List.findSome?_append

/-- The first failure is that of the first spot, or comes later. -/
theorem firstFault_cons (s : Spot) :
    firstFault refused (s :: spots) = (s.moment.fault refused).or (firstFault refused spots) := by
  cases h : s.moment.fault refused <;> simp [firstFault, h]

/-- Where nothing fails the spots that follow are reached. -/
theorem uptoFault_append_of_none (h : firstFault refused spots = none) (spots' : List Spot) :
    uptoFault refused (spots ++ spots') = spots ++ uptoFault refused spots' := by
  induction spots with
  | nil => rfl
  | cons s spots ih =>
      rw [firstFault_cons, Option.or_eq_none_iff] at h
      rw [List.cons_append, uptoFault, h.1, ih h.2]
      rfl

/-- All spots are reached if nothing fails. -/
theorem uptoFault_of_none (h : firstFault refused spots = none) :
    uptoFault refused spots = spots := by
  simpa [uptoFault] using uptoFault_append_of_none h []

/-- After a failure no spot is reached. -/
theorem uptoFault_append_of_some {f : Fault} (h : firstFault refused spots = some f)
    (spots' : List Spot) : uptoFault refused (spots ++ spots') = uptoFault refused spots := by
  induction spots with
  | nil => exact nomatch h
  | cons s spots ih =>
      rw [List.cons_append, uptoFault, uptoFault]
      cases hs : s.moment.fault refused with
      | none =>
          rw [firstFault_cons, hs, Option.none_or] at h
          simp only [ih h]
      | some _ => rfl

end Faults

namespace Pool

/-- A pool with a fit name starts the threads of any task. -/
theorem startThreads_of_hasFitName {p : Pool} (h : p.hasFitName = true) (n : Nat) :
    p.startThreads n = .ok () := by
  simp [startThreads, h]

/-- The tasks that a pool has counted are added to its runs. -/
theorem runs_foldl_count (p : Pool) (ns : List Nat) :
    wrapCount (ns.foldl count p).counts.runs = wrapCount (p.counts.runs + ns.length) := by
  induction ns generalizing p with
  | nil => rfl
  | cons n ns ih =>
      rw [List.foldl_cons, ih, List.length_cons]
      show (((p.counts.runs + 1) % countLimit) + ns.length) % countLimit = _
      rw [Nat.mod_add_mod, Nat.add_right_comm, Nat.add_assoc]
      rfl

/-- The units of counted tasks are added to the units of the pool. -/
theorem units_foldl_count (p : Pool) (ns : List Nat) :
    wrapCount (ns.foldl count p).counts.units = wrapCount (p.counts.units + ns.sum) := by
  induction ns generalizing p with
  | nil => rfl
  | cons n ns ih =>
      rw [List.foldl_cons, ih, List.sum_cons]
      show (((p.counts.units + n) % countLimit) + ns.sum) % countLimit = _
      rw [Nat.mod_add_mod, Nat.add_assoc]
      rfl

end Pool

/-- How starting the threads for a task of `n` units fails. -/
def refusal (pool : Option Pool) (n : Nat) : Option Fault :=
  match pool.elim (.ok ()) fun p => p.startThreads n with
  | .ok _ => none
  | .error f => some f

/-- Counting tasks makes no thread harder to start. -/
theorem refusal_map_count (pool : Option Pool) (ns : List Nat) :
    refusal (pool.map fun p => ns.foldl Pool.count p) = refusal pool := by
  cases pool with
  | none => rfl
  | some p =>
      induction ns generalizing p with
      | nil => rfl
      | cons n ns ih => exact ih (p.count n)

/-- A task without units needs no thread. -/
theorem refusal_zero (pool : Option Pool) : refusal pool 0 = none := by
  cases pool with
  | none => rfl
  | some p => simp [refusal, Pool.startThreads, Pool.threads]

/-- A pool with a fit name refuses no task. -/
theorem refusal_of_hasFitName {pool : Option Pool} (h : ∀ p ∈ pool, p.hasFitName = true) :
    refusal pool = fun _ => none := by
  funext n
  cases pool with
  | none => rfl
  | some p =>
      have hstart := Pool.startThreads_of_hasFitName (h p rfl) n
      simp [refusal, hstart]

/-- A finite tree of bodies and tasks, with what comes after each of them. -/
inductive Errand where
  | done
  /-- Looks at the worker id. -/
  | look (rest : Errand)
  | fail (f : Fault)
  /-- Runs `inner` under the worker id `id`. -/
  | body (id : Nat) (inner rest : Errand)
  /-- Lets the pool run `n` units. -/
  | task (n : Nat) (unit : Nat → Errand) (rest : Errand)

namespace Errand

open Threaded

/-- Notes the worker id of the calling thread. -/
def note (m : Moment) (scopes : List Nat) : EStateM Fault (Threaded (List Sight)) Unit := do
  let worker ← currentWorker
  lift (modify (· ++ [⟨⟨m, scopes⟩, worker⟩]))

/-- Runs an errand within bodies and units of the given ids. -/
def run : List Nat → Errand → EStateM Fault (Threaded (List Sight)) Unit
  | _, done => pure ()
  | scopes, look rest => do
      note .amid scopes
      run scopes rest
  | scopes, fail f => do
      note (.failing f) scopes
      throw f
  | scopes, body id inner rest => do
      tryFinally (withWorker id (run (id :: scopes) inner)) (note .after scopes)
      run scopes rest
  | scopes, task n unit rest => do
      let units := runTask n fun i => do
        note .unit (i :: scopes)
        run (i :: scopes) (unit i)
      let _ ← tryFinally (note (.task n) scopes >>= fun _ => units) (note .after scopes)
      run scopes rest

/-- The spots that an errand gets to if nothing fails: every unit of a task once, in the
order of the indices. -/
def spots : List Nat → Errand → List Spot
  | _, done => []
  | scopes, look rest => ⟨.amid, scopes⟩ :: spots scopes rest
  | scopes, fail f => [⟨.failing f, scopes⟩]
  | scopes, body id inner rest =>
      spots (id :: scopes) inner ++ [⟨.after, scopes⟩] ++ spots scopes rest
  | scopes, task n unit rest =>
      ⟨.task n, scopes⟩ ::
        ((List.range n).flatMap fun i => ⟨.unit, i :: scopes⟩ :: spots (i :: scopes) (unit i)) ++
        [⟨.after, scopes⟩] ++ spots scopes rest

/-- Noting the worker id never fails, and adds one sight to the log. -/
theorem note_ok (m : Moment) (scopes : List Nat) (t : Threaded (List Sight)) :
    note m scopes t = .ok () { t with state := t.state ++ [⟨⟨m, scopes⟩, t.worker⟩] } := rfl

end Errand

variable {base : Option Nat} {refused : Nat → Option Fault} {scopes : List Nat}
  {spots spots₁ spots₂ left : List Spot} {log log₁ log₂ : List Sight}
  {t u v : Threaded (List Sight)} {α β : Type}

/-- What is noted from `t` to `u`.  Outside of all bodies and units that are listed, the
worker id is `base`; `left` are the spots where a failure passes by. -/
structure Shows (base : Option Nat) (refused : Nat → Option Fault) (spots : List Spot)
    (t u : Threaded (List Sight)) (log : List Sight) (left : List Spot) : Prop where
  state : u.state = t.state ++ log
  worker : u.worker = t.worker
  pool : u.pool = t.pool.map fun p => (counted log).foldl Pool.count p
  seen : ∀ s ∈ log, s.worker = s.spot.scopes.head?.or base
  noted : log.map Sight.spot = uptoFault refused spots ++ left
  leaving : ∀ s ∈ left, s.moment = .after

namespace Shows

/-- Where nothing happens nothing is noted. -/
theorem nothing (t : Threaded (List Sight)) : Shows base refused [] t t [] [] where
  state := (List.append_nil _).symm
  worker := rfl
  pool := Option.map_id'.symm
  seen := List.forall_mem_nil _
  noted := rfl
  leaving := List.forall_mem_nil _

/-- The worker id is noted, and a task that begins is counted. -/
theorem sight {m : Moment} {pool : Option Pool} (hworker : t.worker = scopes.head?.or base)
    (hpool : pool = t.pool.map fun p => m.counted.toList.foldl Pool.count p) :
    Shows base refused [⟨m, scopes⟩] t
      { t with state := t.state ++ [⟨⟨m, scopes⟩, t.worker⟩], pool := pool }
      [⟨⟨m, scopes⟩, t.worker⟩] [] where
  state := rfl
  worker := rfl
  pool := by
    rw [hpool]
    cases h : m.counted <;> simp [counted, h]
  seen := List.forall_mem_singleton.mpr hworker
  noted := by
    rw [uptoFault, List.append_nil]
    cases m.fault refused <;> rfl
  leaving := List.forall_mem_nil _

/-- The worker id is noted, and nothing else happens. -/
theorem look {m : Moment} (hcounted : m.counted = none)
    (hworker : t.worker = scopes.head?.or base) :
    Shows base refused [⟨m, scopes⟩] t
      { t with state := t.state ++ [⟨⟨m, scopes⟩, t.worker⟩] } [⟨⟨m, scopes⟩, t.worker⟩] [] :=
  sight hworker (by rw [hcounted]; exact Option.map_id'.symm)

/-- Counted tasks do not change what a pool refuses. -/
theorem refusal_eq (h : Shows base refused spots t u log left) :
    refusal u.pool = refusal t.pool := by
  rw [h.pool, refusal_map_count]

/-- One part follows another that has not failed. -/
theorem append (h₁ : Shows base refused spots₁ t u log₁ [])
    (hnone : firstFault refused spots₁ = none) (h₂ : Shows base refused spots₂ u v log₂ left) :
    Shows base refused (spots₁ ++ spots₂) t v (log₁ ++ log₂) left where
  state := by rw [h₂.state, h₁.state, List.append_assoc]
  worker := h₂.worker.trans h₁.worker
  pool := by
    rw [h₂.pool, h₁.pool, Option.map_map, counted_append]
    congr 1
    funext p
    exact List.foldl_append.symm
  seen := List.forall_mem_append.mpr ⟨h₁.seen, h₂.seen⟩
  noted := by
    rw [List.map_append, h₁.noted, List.append_nil, h₂.noted, uptoFault_of_none hnone,
      uptoFault_append_of_none hnone, List.append_assoc]
  leaving := h₂.leaving

/-- What would come after a failure does not happen. -/
theorem cut {f : Fault} (h : Shows base refused spots₁ t u log left)
    (hsome : firstFault refused spots₁ = some f) (spots₂ : List Spot) :
    Shows base refused (spots₁ ++ spots₂) t u log left :=
  { h with noted := by rw [uptoFault_append_of_some hsome, h.noted] }

/-- A body ends by taking its worker id back. -/
theorem restore {id : Option Nat}
    (h : Shows base refused spots { t with worker := id } u log left) :
    Shows base refused spots t { u with worker := t.worker } log left :=
  { h with worker := rfl }

/-- While a failure passes by, the worker id is noted. -/
theorem pass (h : Shows base refused spots t u log left)
    (hworker : t.worker = scopes.head?.or base) :
    Shows base refused spots t { u with state := u.state ++ [⟨⟨.after, scopes⟩, u.worker⟩] }
      (log ++ [⟨⟨.after, scopes⟩, u.worker⟩]) (left ++ [⟨.after, scopes⟩]) where
  state := by rw [h.state, List.append_assoc]
  worker := h.worker
  pool := by
    rw [counted_append, show counted [⟨⟨.after, scopes⟩, u.worker⟩] = [] from rfl, List.append_nil]
    exact h.pool
  seen := List.forall_mem_append.mpr
    ⟨h.seen, List.forall_mem_singleton.mpr (h.worker.trans hworker)⟩
  noted := by rw [List.map_append, h.noted, List.append_assoc]; rfl
  leaving := List.forall_mem_append.mpr ⟨h.leaving, List.forall_mem_singleton.mpr rfl⟩

end Shows

/-- The result of a computation that starts at `t` and would get to the given spots: it fails
exactly if there is a failure among them. -/
inductive Tells (base : Option Nat) (refused : Nat → Option Fault) (spots : List Spot)
    (t : Threaded (List Sight)) : EStateM.Result Fault (Threaded (List Sight)) α → Prop
  | ok {a : α} {u : Threaded (List Sight)} {log : List Sight} :
      firstFault refused spots = none → Shows base refused spots t u log [] →
        Tells base refused spots t (.ok a u)
  | error {f : Fault} {u : Threaded (List Sight)} {log : List Sight} {left : List Spot} :
      firstFault refused spots = some f → Shows base refused spots t u log left →
        Tells base refused spots t (.error f u)

open Threaded

namespace Tells

variable {x : EStateM Fault (Threaded (List Sight)) α}

/-- A computation that returns at once shows nothing. -/
theorem pure (t : Threaded (List Sight)) (a : α) : Tells base refused [] t (.ok a t) :=
  .ok rfl (.nothing t)

/-- A moment that neither fails nor is counted is noted. -/
theorem note {m : Moment} (hfault : m.fault refused = none) (hcounted : m.counted = none)
    (hworker : t.worker = scopes.head?.or base) :
    Tells base refused [⟨m, scopes⟩] t (Errand.note m scopes t) := by
  refine .ok ?_ (.look hcounted hworker)
  rw [firstFault_cons, hfault]
  rfl

/-- What has been noted on the way to `u` stands before what is noted from there. -/
theorem after {r : EStateM.Result Fault (Threaded (List Sight)) α}
    (h : Shows base refused spots₁ t u log []) (hnone : firstFault refused spots₁ = none)
    (hr : Tells base refused spots₂ u r) : Tells base refused (spots₁ ++ spots₂) t r := by
  have hfirst : firstFault refused (spots₁ ++ spots₂) = firstFault refused spots₂ := by
    rw [firstFault_append, hnone, Option.none_or]
  cases hr with
  | ok hnone' hshows => exact .ok (hfirst.trans hnone') (h.append hnone hshows)
  | error hsome hshows => exact .error (hfirst.trans hsome) (h.append hnone hshows)

/-- A failure keeps the rest from happening. -/
theorem fail {f : Fault} (h : Shows base refused spots₁ t u log left)
    (hsome : firstFault refused spots₁ = some f) (spots₂ : List Spot) :
    Tells base refused (spots₁ ++ spots₂) t
      (.error f u : EStateM.Result Fault (Threaded (List Sight)) α) := by
  refine .error ?_ (h.cut hsome spots₂)
  rw [firstFault_append, hsome, Option.some_or]

/-- The second of two computations starts if the first does not fail. -/
theorem bind {g : α → EStateM Fault (Threaded (List Sight)) β}
    (hx : Tells base refused spots₁ t (x t))
    (hg : ∀ a u, u.worker = t.worker → refusal u.pool = refusal t.pool →
      Tells base refused spots₂ u (g a u)) :
    Tells base refused (spots₁ ++ spots₂) t ((x >>= g) t) := by
  generalize hr : x t = r at hx
  cases hx with
  | ok hnone hshows =>
      rw [bind_ok hr]
      exact .after hshows hnone (hg _ _ hshows.worker hshows.refusal_eq)
  | error hsome hshows =>
      rw [bind_error hr]
      exact .fail hshows hsome spots₂

/-- What is done with the result of a computation shows nothing. -/
theorem map (f : α → β) (hx : Tells base refused spots t (x t)) :
    Tells base refused spots t ((x >>= fun a => Pure.pure (f a)) t) := by
  have hbind := hx.bind (g := fun a => Pure.pure (f a)) fun a u _ _ => Tells.pure u (f a)
  rwa [List.append_nil] at hbind

/-- A body within a worker's id shows what it shows by itself. -/
theorem withWorker {id : Nat} {body : EStateM Fault (Threaded (List Sight)) α}
    (h : Tells base refused spots { t with worker := some id }
      (body { t with worker := some id })) :
    Tells base refused spots t (Threaded.withWorker id body t) := by
  generalize hr : body { t with worker := some id } = r at h
  cases h with
  | ok hnone hshows =>
      rw [withWorker_ok hr]
      exact .ok hnone hshows.restore
  | error hsome hshows =>
      rw [withWorker_error hr]
      exact .error hsome hshows.restore

/-- A computation is over, and the worker id is noted, failure or not. -/
theorem leave (hx : Tells base refused spots t (x t)) (hworker : t.worker = scopes.head?.or base) :
    Tells base refused (spots ++ [⟨.after, scopes⟩]) t
      (tryFinally x (Errand.note .after scopes) t) := by
  generalize hr : x t = r at hx
  cases hx with
  | ok hnone hshows =>
      rw [tryFinally_ok hr (Errand.note_ok .after scopes _)]
      exact .after hshows hnone (.ok rfl (.look rfl (hshows.worker.trans hworker)))
  | error hsome hshows =>
      rw [tryFinally_error hr (Errand.note_ok .after scopes _)]
      exact .fail (hshows.pass hworker) hsome _

/-- However a computation ends, it shows what it has done. -/
theorem shows {r : EStateM.Result Fault (Threaded (List Sight)) α}
    (h : Tells base refused spots t r) :
    ∃ u log left, Shows base refused spots t u log left ∧
      (firstFault refused spots = none → (∃ a, r = .ok a u) ∧ left = []) ∧
      ∀ f, firstFault refused spots = some f → r = .error f u := by
  cases h with
  | ok hnone hshows => exact ⟨_, _, _, hshows, fun _ => ⟨⟨_, rfl⟩, rfl⟩, by simp [hnone]⟩
  | error hsome hshows => exact ⟨_, _, _, hshows, by simp [hsome], by simp [hsome]⟩

end Tells

section Units

variable {unit : Nat → EStateM Fault (Threaded (List Sight)) α} {unitSpots : Nat → List Spot}
  {n : Nat}

/-- The units of a task, one after the other, up to the first that fails. -/
theorem runEach_tells
    (hunit : ∀ i u, u.worker = some i → refusal u.pool = refused →
      Tells base refused (unitSpots i) u (unit i u))
    (units : List Nat) (hrefused : refusal t.pool = refused) :
    Tells base refused (units.flatMap unitSpots) t (runEach unit units t) := by
  induction units generalizing t with
  | nil => exact .pure t []
  | cons i units ih =>
      refine Tells.bind (.withWorker (hunit i _ rfl hrefused)) fun a u _ hpool => ?_
      exact .map (a :: ·) (ih (hpool.trans hrefused))

/-- Threads are started, or the caller learns why not. -/
theorem startThreads_eq (n : Nat) (t : Threaded (List Sight)) :
    startThreads n t =
      match refusal t.pool n with
      | none => .ok () t
      | some f => .error f t := by
  unfold startThreads refusal
  cases t.pool with
  | none => rfl
  | some p => cases hstart : p.startThreads n <;> simp [hstart]

/-- A task is counted before its threads are started, unless it has no units. -/
theorem runTask_tells (hworker : t.worker = scopes.head?.or base)
    (hrefused : refusal t.pool = refused)
    (hunit : ∀ i u, u.worker = some i → refusal u.pool = refused →
      Tells base refused (unitSpots i) u (unit i u)) :
    Tells base refused (⟨.task n, scopes⟩ :: (List.range n).flatMap unitSpots) t
      ((Errand.note (.task n) scopes >>= fun _ => runTask n unit) t) := by
  have hfirst : firstFault refused [⟨.task n, scopes⟩] = refused n := by
    rw [firstFault_cons]
    exact Option.or_none
  rw [bind_ok (Errand.note_ok (.task n) scopes t), ← List.singleton_append]
  unfold runTask
  by_cases hn : n = 0
  · subst hn
    refine .after (.look rfl hworker) ?_ (.pure _ [])
    rw [hfirst, ← hrefused, refusal_zero]
  · have hcount : t.pool.map (Pool.count · n) =
        t.pool.map fun p => (Moment.task n).counted.toList.foldl Pool.count p := by
      simp [Moment.counted, hn]
    have hshows : Shows base refused [⟨.task n, scopes⟩] t _ _ [] := .sight hworker hcount
    have hpool := hshows.refusal_eq.trans hrefused
    have hstart := startThreads_eq n { t with
      state := t.state ++ [⟨⟨.task n, scopes⟩, t.worker⟩], pool := t.pool.map (Pool.count · n) }
    rw [hpool] at hstart
    rw [if_neg hn, bind_ok (countTask_ok _ _)]
    cases hrefuses : refused n with
    | none =>
        rw [hrefuses] at hstart
        rw [bind_ok hstart]
        exact .after hshows (hfirst.trans hrefuses) (runEach_tells hunit (List.range n) hpool)
    | some f =>
        rw [hrefuses] at hstart
        rw [bind_error hstart]
        exact .fail hshows (hfirst.trans hrefuses) _

end Units

/-- A whole errand within bodies and units of the given ids, by induction on the errand.
Every part finds the worker id as the part before has found it. -/
theorem Errand.run_tells (e : Errand) (hworker : t.worker = scopes.head?.or base)
    (hrefused : refusal t.pool = refused) :
    Tells base refused (e.spots scopes) t (e.run scopes t) := by
  induction e generalizing scopes t with
  | done => exact .pure t ()
  | look rest ih =>
      exact (Tells.note (m := .amid) rfl rfl hworker).bind fun _ u hu hpool =>
        ih (hu.trans hworker) (hpool.trans hrefused)
  | fail f =>
      have hshows : Shows base refused [⟨.failing f, scopes⟩] t _ _ [] := .look rfl hworker
      exact .error rfl hshows
  | body id inner rest ihInner ih =>
      have hinner : Tells base refused (inner.spots (id :: scopes)) t
          (Threaded.withWorker id (inner.run (id :: scopes)) t) := .withWorker (ihInner rfl hrefused)
      exact (hinner.leave hworker).bind fun _ u hu hpool =>
        ih (hu.trans hworker) (hpool.trans hrefused)
  | task n unit rest ihUnit ih =>
      have hunit (i : Nat) (u : Threaded (List Sight)) (hu : u.worker = some i)
          (hpool : refusal u.pool = refused) :
          Tells base refused (⟨.unit, i :: scopes⟩ :: (unit i).spots (i :: scopes)) u
            ((do note .unit (i :: scopes); run (i :: scopes) (unit i)) u) :=
        (Tells.note (m := .unit) rfl rfl hu).bind fun _ v hv hpool' =>
          ihUnit i (hv.trans hu) (hpool'.trans hpool)
      have hunits := runTask_tells (n := n) hworker hrefused hunit
      exact (hunits.leave hworker).bind fun _ u hu hpool =>
        ih (hu.trans hworker) (hpool.trans hrefused)

/-- The worker id noted in an errand is that of the innermost body or unit around, and the
one from before if there is none; when the errand is over it is the one from before.  If
nothing fails, everything is done once and in order.  Else the caller gets the first failure,
everything up to it is done once and in order, and then only bodies and tasks are left; a pool
whose name threads can be given fails no task by itself.  The pool has counted the tasks that
have begun and have units. -/
theorem worker_ids_are_scoped (e : Errand) (t : Threaded (List Sight)) :
    ∃ u log left, u.state = t.state ++ log ∧
      u.worker = t.worker ∧
      (∀ s ∈ log, s.worker = s.spot.scopes.head?.or t.worker) ∧
      (firstFault (refusal t.pool) (e.spots []) = none →
        e.run [] t = .ok () u ∧ log.map Sight.spot = e.spots []) ∧
      (∀ f, firstFault (refusal t.pool) (e.spots []) = some f →
        e.run [] t = .error f u ∧
        log.map Sight.spot = uptoFault (refusal t.pool) (e.spots []) ++ left ∧
        ∀ s ∈ left, s.moment = .after) ∧
      ((∀ p ∈ t.pool, p.hasFitName = true) → refusal t.pool = fun _ => none) ∧
      u.pool = t.pool.map (fun p => (counted log).foldl Pool.count p) ∧
      ∀ p ∈ t.pool, ∀ q ∈ u.pool,
        wrapCount q.counts.runs = wrapCount (p.counts.runs + (counted log).length) ∧
        wrapCount q.counts.units = wrapCount (p.counts.units + (counted log).sum) := by
  have htells : Tells t.worker (refusal t.pool) (e.spots []) t (e.run [] t) :=
    e.run_tells rfl rfl
  obtain ⟨u, log, left, hshows, hreturned, hfailed⟩ := htells.shows
  refine ⟨u, log, left, hshows.state, hshows.worker, hshows.seen, ?returned, ?failed,
    refusal_of_hasFitName, hshows.pool, ?counts⟩
  case returned =>
    intro hnone
    obtain ⟨⟨_, hok⟩, hleft⟩ := hreturned hnone
    refine ⟨hok, ?_⟩
    rw [hshows.noted, uptoFault_of_none hnone, hleft, List.append_nil]
  case failed => exact fun f hsome => ⟨hfailed f hsome, hshows.noted, hshows.leaving⟩
  case counts =>
    intro p hp q hq
    rw [hshows.pool, hp] at hq
    cases hq
    exact ⟨p.runs_foldl_count _, p.units_foldl_count _⟩

/-- Within a body, the second of three units fails. -/
example :
    (match (Errand.body 7 (.task 3 (fun i => if i = 1 then .fail .endless else .look .done) .done)
        .done).run [] { state := [] } with
      | .ok _ u => (none, u.state.map Sight.worker)
      | .error f u => (some f, u.state.map Sight.worker)) =
    (some .endless, [some 7, some 0, some 0, some 1, some 1, some 7, none]) := by decide

end Referents
