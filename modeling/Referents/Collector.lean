import Referents.Heap

/-!
# The seam to the collector

Resolving references never marks, copies or scans by itself: it asks the
collector through a set of **hooks**.  A hook works on a **world**, the heap
together with whatever state the collector keeps, and may fail.
-/

namespace Referents

/-- The heap and the state of a collector. -/
structure World (γ : Type) where
  heap : Heap
  collector : γ

/-- A computation on the heap and the state of a collector. -/
abbrev Act (γ : Type) := EStateM Fault (World γ)

namespace Act

variable {γ δ α : Type}

/-- A computation that may fail and changes nothing. -/
def ofExcept (x : Except Fault α) : Act γ α :=
  match x with
  | .ok a => pure a
  | .error e => throw e

/-- Reads from the heap. -/
def read (f : Heap → Except Fault α) : Act γ α := do
  ofExcept (f (← get).heap)

/-- Changes the heap. -/
def update (f : Heap → Except Fault Heap) : Act γ Unit := do
  let h ← read f
  modify fun w => { w with heap := h }

/-- Changes the heap, and returns what the change tells. -/
def transform (f : Heap → Except Fault (α × Heap)) : Act γ α := do
  let (a, h) ← read f
  modify fun w => { w with heap := h }
  return a

/-- A computation on the heap alone. -/
def onHeap (x : EStateM Fault Heap α) : Act γ α := fun w =>
  match x w.heap with
  | .ok a heap => .ok a { w with heap }
  | .error e heap => .error e { w with heap }

/-- Changes the state of the collector. -/
def updateCollector (f : γ → γ) : Act γ Unit :=
  modify fun w => { w with collector := f w.collector }

/-- Asks the state of the collector, which the answer may change. -/
def ask (f : γ → α × γ) : Act γ α :=
  modifyGet fun w =>
    let (a, collector) := f w.collector
    (a, { w with collector })

/-- Runs a computation of one collector as a part of another. -/
def within (part : δ → γ) (replace : δ → γ → δ) (x : Act γ α) : Act δ α := fun w =>
  match x ⟨w.heap, part w.collector⟩ with
  | .ok a v => .ok a ⟨v.heap, replace w.collector v.collector⟩
  | .error e v => .error e ⟨v.heap, replace w.collector v.collector⟩

end Act

/-- What a collector does for the references that are resolved. -/
structure Hooks (γ : Type) where
  /-- Whether an object is strongly reachable. -/
  isAlive : Handle → Act γ Bool
  /-- Makes the object in a link field reachable; may leave work for `complete`. -/
  keepAlive : LinkAddr → Act γ Unit
  /-- Stores a link of the chain that is going to be published. -/
  enqueue : LinkAddr → Option Handle → Act γ Unit
  /-- Finishes the work that `keepAlive` left. -/
  complete : Act γ Unit
  /-- Announces a phase: the number of queues, whether several workers share
  them, and whether the phase makes objects reachable. -/
  prepare : Nat → Bool → Bool → γ → γ := fun _ _ _ g => g
  /-- Announces the work on one queue, under the worker id of the caller. -/
  enterUnit : Nat → Option Nat → γ → γ := fun _ _ g => g

/-- The hooks of a collector as hooks of one that it is a part of. -/
def Hooks.within {γ δ : Type} (part : δ → γ) (replace : δ → γ → δ) (hooks : Hooks γ) :
    Hooks δ where
  isAlive o := (hooks.isAlive o).within part replace
  keepAlive a := (hooks.keepAlive a).within part replace
  enqueue a value := (hooks.enqueue a value).within part replace
  complete := hooks.complete.within part replace
  prepare queues multi marksAlive d :=
    replace d (hooks.prepare queues multi marksAlive (part d))
  enterUnit queue worker d := replace d (hooks.enterUnit queue worker (part d))

/-- The hooks of a collector beside which another state is kept. -/
def Hooks.beside {γ : Type} (hooks : Hooks γ) (τ : Type) : Hooks (γ × τ) :=
  hooks.within Prod.fst fun d g => (g, d.2)

/-- The same hooks with another judgement of what is alive. -/
def Hooks.withAlive {γ : Type} (hooks : Hooks γ) (alive : Handle → Bool) : Hooks γ :=
  { hooks with isAlive := fun o => pure (alive o) }

/-- The hooks for a pass that keeps nothing alive. -/
def Hooks.dropOnly {γ : Type} (hooks : Hooks γ) : Hooks γ :=
  { hooks with keepAlive := fun _ => throw (.crash .noKeepAlive) }

/-- Stores a link, and nothing else. -/
def plainEnqueue {γ : Type} (a : LinkAddr) (value : Option Handle) : Act γ Unit :=
  Act.update fun h => h.store a value

/-- Stores a link and then reports the store to `barrier`. -/
def barrierEnqueue {γ : Type} (barrier : LinkAddr → Option Handle → Act γ Unit)
    (a : LinkAddr) (value : Option Handle) : Act γ Unit := do
  plainEnqueue a value
  barrier a value

/-- Tells whether precleaning should stop; an answer may change the collector's state. -/
structure YieldCheck (γ : Type) where
  /-- Asked before every list. -/
  atList : γ → Bool × γ
  /-- Asked before every reference. -/
  atReference : γ → Bool × γ := fun g => (false, g)

namespace YieldCheck

/-- Precleaning goes on to the end. -/
def never {γ : Type} : YieldCheck γ where
  atList g := (false, g)

/-- Precleaning stops before its first list. -/
def always {γ : Type} : YieldCheck γ where
  atList g := (true, g)

/-- The check of a state that is kept beside a collector. -/
def beside {τ : Type} (check : YieldCheck τ) (γ : Type) : YieldCheck (γ × τ) where
  atList d := let (out, t) := check.atList d.2; (out, d.1, t)
  atReference d := let (out, t) := check.atReference d.2; (out, d.1, t)

end YieldCheck

end Referents
