import Mathlib.Algebra.Order.Ring.Int
import Referents.Cycle

/-!
# Running a computation step by step

Every operation of the library returns a result with the next state, or a
failure.  To show that an operation *does* return, its steps are run one after
the other: each lemma here runs one step whose part is already known to
return, and leaves the rest of the computation.

* `bind_ok`, `except_bind_ok` — the first of two computations is run.
* `Act.read_ok`, `Act.update_ok`, `Act.transform_ok` — steps on the heap.
* `Step.onWorld_ok`, `Step.withHeap_ok`, `Threaded.lift_ok` — steps of a cycle
  and of a pass.
-/

namespace Referents

variable {ε σ α β γ : Type}

/-- The first of two computations returns, and the second goes on from there. -/
theorem bind_ok {x : EStateM ε σ α} {f : α → EStateM ε σ β} {s s' : σ} {a : α}
    (h : x s = .ok a s') : (x >>= f) s = f a s' := by
  show EStateM.bind x f s = f a s'
  simp [EStateM.bind, h]

/-- If the first fails, both do. -/
theorem bind_error {x : EStateM ε σ α} {f : α → EStateM ε σ β} {s s' : σ} {e : ε}
    (h : x s = .error e s') : (x >>= f) s = .error e s' := by
  show EStateM.bind x f s = .error e s'
  simp [EStateM.bind, h]

/-- What is done at the end is done after a computation that returns. -/
theorem tryFinally_ok {x : EStateM ε σ α} {y : EStateM ε σ β} {s s' s'' : σ} {a : α} {b : β}
    (hx : x s = .ok a s') (hy : y s' = .ok b s'') : tryFinally x y s = .ok a s'' := by
  simp [tryFinally, tryFinally', Functor.map, EStateM.map, hx, hy]

/-- It is done after a failure, too, and the failure stays the same. -/
theorem tryFinally_error {x : EStateM ε σ α} {y : EStateM ε σ β} {s s' s'' : σ} {e : ε} {b : β}
    (hx : x s = .error e s') (hy : y s' = .ok b s'') : tryFinally x y s = .error e s'' := by
  simp [tryFinally, tryFinally', Functor.map, EStateM.map, hx, hy]

/-- If two computations return, the first one did, and the second went on from there. -/
theorem exists_of_bind_ok {x : EStateM ε σ α} {f : α → EStateM ε σ β} {s s'' : σ} {b : β}
    (h : (x >>= f) s = .ok b s'') : ∃ a s', x s = .ok a s' ∧ f a s' = .ok b s'' := by
  cases hx : x s with
  | ok a s' => exact ⟨a, s', rfl, (bind_ok hx).symm.trans h⟩
  | error e s' =>
      rw [bind_error hx] at h
      cases h

/-- The same for computations without a state. -/
theorem except_bind_ok {x : Except ε α} {f : α → Except ε β} {a : α} (h : x = .ok a) :
    (x >>= f) = f a := by
  subst h
  rfl

/-- If two of them return, the first one did. -/
theorem exists_of_except_bind_ok {x : Except ε α} {f : α → Except ε β} {b : β}
    (h : (x >>= f) = .ok b) : ∃ a, x = .ok a ∧ f a = .ok b := by
  cases hx : x with
  | ok a => exact ⟨a, rfl, (except_bind_ok hx).symm.trans h⟩
  | error e =>
      rw [hx] at h
      cases h

/-- Applying a function to the result of a computation. -/
theorem map_ok {x : EStateM ε σ α} (f : α → β) {s s' : σ} {a : α} (h : x s = .ok a s') :
    (f <$> x) s = .ok (f a) s' := by
  show EStateM.map f x s = _
  simp [EStateM.map, h]

/-- Reading the state returns it. -/
theorem get_ok (s : σ) : (get : EStateM ε σ σ) s = .ok s s := rfl

/-- A change of the state returns nothing else. -/
theorem modify_ok (f : σ → σ) (s : σ) : (modify f : EStateM ε σ PUnit) s = .ok ⟨⟩ (f s) := rfl

/-- What a computation returns can be found by running it. -/
theorem exists_of_run {x : EStateM ε σ α} {s : σ} {P : α → σ → Bool}
    (h : (match x s with
      | .ok a s' => P a s'
      | .error _ _ => false) = true) : ∃ a s', x s = .ok a s' ∧ P a s' = true := by
  cases hx : x s with
  | ok a s' =>
      rw [hx] at h
      exact ⟨a, s', rfl, h⟩
  | error e s' =>
      rw [hx] at h
      cases h

/-- A loop over the items of a list returns if every round does.  `P done` is
what holds of the state when the items of `done` have been dealt with. -/
theorem forM_ok {ι : Type} {f : ι → EStateM ε σ Unit} (P : List ι → σ → Prop)
    {l : List ι}
    (hround : ∀ done i rest s, l = done ++ i :: rest → P done s →
      ∃ s', f i s = .ok () s' ∧ P (done ++ [i]) s')
    {s : σ} (hstart : P [] s) : ∃ s', l.forM f s = .ok () s' ∧ P l s' := by
  suffices h : ∀ rest done s, l = done ++ rest → P done s →
      ∃ s', rest.forM f s = .ok () s' ∧ P l s' from h l [] s rfl hstart
  intro rest
  induction rest with
  | nil =>
      intro done s hitems hP
      exact ⟨s, rfl, by simpa [hitems] using hP⟩
  | cons i rest ih =>
      intro done s hitems hP
      obtain ⟨s₁, hi, hP₁⟩ := hround done i rest s hitems hP
      obtain ⟨s₂, hrest, hP₂⟩ := ih (done ++ [i]) s₁ (by simp [hitems]) hP₁
      exact ⟨s₂, (bind_ok hi).trans hrest, hP₂⟩

/-- The same for a loop over the first `n` numbers. -/
theorem forM_range_ok {f : Nat → EStateM ε σ Unit} (P : Nat → σ → Prop) {n : Nat}
    (hround : ∀ i s, i < n → P i s → ∃ s', f i s = .ok () s' ∧ P (i + 1) s')
    {s : σ} (hstart : P 0 s) : ∃ s', (List.range n).forM f s = .ok () s' ∧ P n s' := by
  obtain ⟨s', hrun, hP⟩ := forM_ok (fun done s => P done.length s) (l := List.range n)
    (by
      intro done i rest s hitems hP
      have hi : i = done.length := by
        have hget : (List.range n)[done.length]? = some i := by simp [hitems]
        have hlength : done.length < n := by
          have := congrArg List.length hitems
          simp only [List.length_range, List.length_append, List.length_cons] at this
          omega
        rw [List.getElem?_range hlength] at hget
        exact (Option.some.inj hget).symm
      have hlt : i < n := List.mem_range.mp (by rw [hitems]; simp)
      obtain ⟨s', hrun, hP'⟩ := hround i s hlt (by rw [hi]; exact hP)
      exact ⟨s', hrun, by rw [List.length_append, ← hi]; exact hP'⟩)
    hstart
  exact ⟨s', hrun, by simpa using hP⟩

/-- The same for a loop without a state that passes a value on. -/
theorem except_foldlM_ok {ι : Type} {f : β → ι → Except ε β} (P : List ι → β → Prop)
    {l : List ι}
    (hround : ∀ done i rest b, l = done ++ i :: rest → P done b →
      ∃ b', f b i = .ok b' ∧ P (done ++ [i]) b')
    {b : β} (hstart : P [] b) : ∃ b', l.foldlM f b = .ok b' ∧ P l b' := by
  suffices h : ∀ rest done b, l = done ++ rest → P done b →
      ∃ b', rest.foldlM f b = .ok b' ∧ P l b' from h l [] b rfl hstart
  intro rest
  induction rest with
  | nil =>
      intro done b hitems hP
      exact ⟨b, rfl, by simpa [hitems] using hP⟩
  | cons i rest ih =>
      intro done b hitems hP
      obtain ⟨b₁, hi, hP₁⟩ := hround done i rest b hitems hP
      obtain ⟨b₂, hrest, hP₂⟩ := ih (done ++ [i]) b₁ (by simp [hitems]) hP₁
      exact ⟨b₂, (except_bind_ok hi).trans hrest, hP₂⟩

/-- A check of every item of a list passes if each check does. -/
theorem except_forM_ok {ι : Type} {f : ι → Except ε Unit} {items : List ι}
    (hall : ∀ i ∈ items, f i = .ok ()) : items.forM f = .ok () := by
  induction items with
  | nil => rfl
  | cons i rest ih =>
      exact (except_bind_ok (hall i List.mem_cons_self)).trans
        (ih fun j hj => hall j (List.mem_cons_of_mem i hj))

/-- A check whose condition holds passes. -/
theorem require_ok {cond : Bool} (b : Breach) (h : cond = true) : require cond b = .ok () := by
  simp [require, h]

namespace Act

variable {w : World γ}

/-- A result that was computed beside the heap is returned, and the heap left. -/
theorem ofExcept_ok {x : Except Fault α} {a : α} (h : x = .ok a) :
    (ofExcept x : Act γ α) w = .ok a w := by
  subst h
  rfl

/-- A reading of the heap is returned. -/
theorem read_ok {f : Heap → Except Fault α} {a : α} (h : f w.heap = .ok a) :
    (read f : Act γ α) w = .ok a w := by
  show (get >>= fun w => ofExcept (f w.heap) : Act γ α) w = _
  rw [bind_ok (get_ok w), ofExcept_ok h]

/-- A reading that fails leaves the heap as it is. -/
theorem read_error {f : Heap → Except Fault α} {e : Fault} (h : f w.heap = .error e) :
    (read f : Act γ α) w = .error e w := by
  show (get >>= fun w => ofExcept (f w.heap) : Act γ α) w = _
  rw [bind_ok (get_ok w), h]
  rfl

/-- A reading changes nothing. -/
theorem eq_of_read_ok {f : Heap → Except Fault α} {a : α} {w' : World γ}
    (h : (read f : Act γ α) w = .ok a w') : w' = w ∧ f w.heap = .ok a := by
  cases hf : f w.heap with
  | ok b =>
      rw [read_ok hf] at h
      cases h
      exact ⟨rfl, rfl⟩
  | error e =>
      rw [read_error hf] at h
      cases h

/-- A change of the heap is made. -/
theorem update_ok {f : Heap → Except Fault Heap} {h : Heap} (hf : f w.heap = .ok h) :
    (update f : Act γ Unit) w = .ok () { w with heap := h } := by
  show (read f >>= fun h => modify fun w => { w with heap := h } : Act γ Unit) w = _
  rw [bind_ok (read_ok hf)]
  rfl

/-- A change that fails leaves the heap as it is. -/
theorem update_error {f : Heap → Except Fault Heap} {e : Fault} (hf : f w.heap = .error e) :
    (update f : Act γ Unit) w = .error e w := bind_error (read_error hf)

/-- A change with an answer that fails leaves the heap as it is. -/
theorem transform_error {f : Heap → Except Fault (α × Heap)} {e : Fault}
    (hf : f w.heap = .error e) : (transform f : Act γ α) w = .error e w :=
  bind_error (read_error hf)

/-- A change with an answer is made and answered. -/
theorem transform_ok {f : Heap → Except Fault (α × Heap)} {a : α} {h : Heap}
    (hf : f w.heap = .ok (a, h)) :
    (transform f : Act γ α) w = .ok a { w with heap := h } := by
  unfold transform
  rw [bind_ok (read_ok hf)]
  rfl

/-- A computation on a part of the collector leaves the part beside it. -/
theorem beside_ok {τ : Type} {x : Act γ α} {w : World (γ × τ)} {a : α} {v : World γ}
    (h : x ⟨w.heap, w.collector.1⟩ = .ok a v) :
    (x.within Prod.fst fun d g => (g, d.2) : Act (γ × τ) α) w =
      .ok a ⟨v.heap, (v.collector, w.collector.2)⟩ := by
  simp [within, h]

end Act

namespace Step

variable {c : Cycle γ}

/-- A result that was computed beside the cycle is returned, and the cycle left. -/
theorem ofExcept_ok {x : Except Fault α} {a : α} (h : x = .ok a) :
    (ofExcept x : Step γ α) c = .ok a c := by
  subst h
  rfl

/-- A computation on the world leaves the rest of the cycle. -/
theorem onWorld_ok {x : Act γ α} {a : α} {w : World γ} (h : x c.world = .ok a w) :
    (onWorld x : Step γ α) c = .ok a { c with world := w } := by
  simp [onWorld, h]

/-- A notice to the collector changes the collector only. -/
theorem updateCollector_ok (f : γ → γ) (c : Cycle γ) :
    (onWorld (Act.updateCollector f) : Step γ Unit) c =
      .ok () { c with world := { c.world with collector := f c.world.collector } } := rfl

/-- The processor is read. -/
theorem processor_ok (c : Cycle γ) : (processor : Step γ Processor) c = .ok c.processor c := rfl

/-- The processor is changed. -/
theorem updateProcessor_ok {f : Processor → Except Fault Processor} {p : Processor}
    (h : f c.processor = .ok p) :
    (updateProcessor f : Step γ Unit) c = .ok () { c with processor := p } := by
  unfold updateProcessor
  rw [bind_ok (processor_ok c), bind_ok (ofExcept_ok h)]
  rfl

/-- The times are changed where they can be. -/
theorem tryUpdateTimes_ok {f : PhaseTimes → Except Fault PhaseTimes} {times : PhaseTimes}
    (h : f c.times = .ok times) :
    (tryUpdateTimes f : Step γ Unit) c = .ok () { c with times := times } := by
  unfold tryUpdateTimes
  rw [bind_ok (get_ok c), bind_ok (ofExcept_ok h)]
  rfl

/-- Processor and sink are changed together. -/
theorem withSink_ok {f : Processor → Sink → Except Fault (Processor × Sink)} {p : Processor}
    {sink : Sink} (h : f c.processor c.sink = .ok (p, sink)) :
    (withSink f : Step γ Unit) c = .ok () { c with processor := p, sink := sink } := by
  unfold withSink
  rw [bind_ok (get_ok c), bind_ok (ofExcept_ok h)]
  rfl

/-- A step with another collector in the place of the own leaves what it did to both. -/
theorem viaCollector_ok {enter : γ → δ} {leave : δ → γ} {x : Step δ α} {a : α} {d : Cycle δ}
    (h : x (c.withCollector (enter c.world.collector)) = .ok a d) :
    viaCollector enter leave x c =
      .ok (a, d.world.collector) (d.withCollector (leave d.world.collector)) := by
  simp [viaCollector, h]

/-- Processor, heap and sink are changed together. -/
theorem withHeap_ok {f : Processor → Heap → Sink → Except Fault (Processor × Heap × Sink)}
    {p : Processor} {h : Heap} {sink : Sink}
    (hf : f c.processor c.world.heap c.sink = .ok (p, h, sink)) :
    (withHeap f : Step γ Unit) c =
      .ok () { c with processor := p, sink := sink, world := { c.world with heap := h } } := by
  unfold withHeap
  rw [bind_ok (get_ok c), bind_ok (ofExcept_ok hf)]
  rfl

end Step

/-- A computation on the state leaves worker and pool. -/
theorem Threaded.lift_ok {x : EStateM ε σ α} {t : Threaded σ} {a : α} {s : σ}
    (h : x t.state = .ok a s) : (Threaded.lift x) t = .ok a { t with state := s } := by
  simp [Threaded.lift, h]

namespace Threaded

variable {t : Threaded σ}

/-- A body that returns ends with the worker id from before it. -/
theorem withWorker_ok {id : Nat} {body : EStateM ε (Threaded σ) α} {a : α} {u : Threaded σ}
    (h : body { t with worker := some id } = .ok a u) :
    withWorker id body t = .ok a { u with worker := t.worker } := by
  simp [withWorker, h]

/-- A body that fails ends with the worker id from before it. -/
theorem withWorker_error {id : Nat} {body : EStateM ε (Threaded σ) α} {e : ε} {u : Threaded σ}
    (h : body { t with worker := some id } = .error e u) :
    withWorker id body t = .error e { u with worker := t.worker } := by
  simp [withWorker, h]

/-- Counting a task changes the pool's counts, if there is a pool. -/
theorem countTask_ok (n : Nat) (t : Threaded σ) :
    (countTask n : EStateM ε (Threaded σ) Unit) t =
      .ok () { t with pool := t.pool.map (Pool.count · n) } := rfl

/-- A pool that can start threads, or none, starts the threads of every task. -/
theorem startThreads_ok {n : Nat} {t : Threaded σ} (hstart : ∀ p ∈ t.pool, p.CanStart) :
    startThreads n t = .ok () t := by
  unfold startThreads
  cases hpool : t.pool with
  | none => rfl
  | some p => simp [p.startThreads_ok (hstart p hpool) n]

/-- Units return if each does, in whatever order they run.  `P done` is what holds of the
state when the units in `done` are over, whoever ran them. -/
theorem runEach_ok {unit : Nat → EStateM ε (Threaded σ) α} (P : List Nat → σ → Prop)
    {units : List Nat}
    (hround : ∀ done i rest t, units = done ++ i :: rest → P done t.state →
      ∃ a t', unit i t = .ok a t' ∧ t'.pool = t.pool ∧ P (done ++ [i]) t'.state)
    (hP : P [] t.state) :
    ∃ as t', runEach unit units t = .ok as t' ∧ t'.pool = t.pool ∧ P units t'.state := by
  suffices h : ∀ rest done t, units = done ++ rest → P done t.state →
      ∃ as t', runEach unit rest t = .ok as t' ∧ t'.pool = t.pool ∧ P units t'.state from
    h units [] t rfl hP
  intro rest
  induction rest with
  | nil =>
      intro done t hunits hP
      exact ⟨[], t, rfl, rfl, by simpa [hunits] using hP⟩
  | cons i rest ih =>
      intro done t hunits hP
      obtain ⟨a, u, hunit, hpool, hPu⟩ :=
        hround done i rest { t with worker := some i } hunits hP
      obtain ⟨as, t', hrest, hpool', hP'⟩ :=
        ih (done ++ [i]) { u with worker := t.worker } (by simp [hunits]) hPu
      exact ⟨a :: as, t', (bind_ok (withWorker_ok hunit)).trans ((bind_ok hrest).trans rfl),
        hpool'.trans hpool, hP'⟩

/-- A task returns if its threads can be started and each of its units returns. -/
theorem runTask_ok {unit : Nat → EStateM Fault (Threaded σ) α} (P : List Nat → σ → Prop) {n : Nat}
    (order : UnitOrder n) (hstart : ∀ p ∈ t.pool, p.CanStart)
    (hround : ∀ done i rest t, order.units = done ++ i :: rest → P done t.state →
      ∃ a t', unit i t = .ok a t' ∧ t'.pool = t.pool ∧ P (done ++ [i]) t'.state)
    (hP : P [] t.state) :
    ∃ as t', runTask n unit order t = .ok as t' ∧ (∀ p ∈ t'.pool, p.CanStart) ∧
      P order.units t'.state := by
  unfold runTask
  by_cases hn : n = 0
  · subst hn
    have hnone : order.units = [] := order.perm.eq_nil
    exact ⟨[], t, rfl, hstart, by rwa [hnone]⟩
  · have hcounted : ∀ p ∈ t.pool.map (Pool.count · n), p.CanStart := by
      intro p hp
      obtain ⟨p₀, hp₀, rfl⟩ := Option.mem_map.mp hp
      exact (hstart p₀ hp₀).count n
    obtain ⟨as, t', hrun, hpool, hP'⟩ := runEach_ok P hround
      (t := { t with pool := t.pool.map (Pool.count · n) }) hP
    refine ⟨as, t', ?_, by rw [hpool]; exact hcounted, hP'⟩
    rw [if_neg hn]
    exact (bind_ok (countTask_ok n t)).trans ((bind_ok (startThreads_ok hcounted)).trans hrun)

end Threaded

end Referents
