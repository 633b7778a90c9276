import Referents.Collector
import Referents.Proofs.Heap.Agreement

/-!
# What is expected of a collector

Resolving references asks a collector for answers and for work.  What it asked
so far is its list of **calls**.  A collector is described by an invariant that
relates the calls to the world: if the invariant holds before a call, then the
call returns, the invariant holds of the longer list of calls, and the links of
the heap are as they were, but for the one link that the collector was told to
store.

* `Storing` — stores links, finishes its work, and is told of phases and units.
* `Answering` — answers what is alive.
* `Resolving` — does both, and makes reachable what it found alive.
* `KeepingFinals` — makes the targets of final references reachable.

Some calls are stores (`Call.stored?`), and some are questions and orders about
members of a list (`Call.consultation?`).
-/

namespace Referents

/-- A call of one of the hooks. -/
inductive Call where
  /-- The collector told whether an object is alive. -/
  | isAlive (o : Handle) (answer : Bool)
  /-- It was to make the target `r` of the reference `o` reachable. -/
  | keepAlive (o r : Handle)
  /-- It was to store a link. -/
  | store (a : LinkAddr) (value : Option Handle)
  /-- It was to finish its work. -/
  | complete
deriving DecidableEq

/-- What a collector is asked and told of the members of a list. -/
inductive Consultation where
  /-- Whether an object is alive, and what it answered. -/
  | asked (o : Handle) (answer : Bool)
  /-- To keep the object in a link field alive. -/
  | kept (a : LinkAddr)
deriving DecidableEq

namespace Call

/-- The consultation that a call is. -/
def consultation? : Call → Option Consultation
  | .isAlive o answer => some (.asked o answer)
  | .keepAlive o _ => some (.kept ⟨o, .referent⟩)
  | .store _ _ | .complete => none

/-- The store that a call is. -/
def stored? : Call → Option (LinkAddr × Option Handle)
  | .store a value => some (a, value)
  | .isAlive _ _ | .keepAlive _ _ | .complete => none

end Call

/-- Nothing was called, or the collector has finished its work last. -/
def Rested (calls : List Call) : Prop := calls = [] ∨ calls.getLast? = some .complete

/-- The answers that were given are those of `alive`. -/
def Truthful (alive : Handle → Bool) (calls : List Call) : Prop :=
  ∀ r answer, .isAlive r answer ∈ calls → alive r = answer

namespace Truthful

variable {alive : Handle → Bool} {calls more : List Call}

theorem start : Truthful alive [] := fun _ _ hcall => nomatch hcall

theorem of_append (ht : Truthful alive (calls ++ more)) :
    Truthful alive calls ∧ Truthful alive more :=
  ⟨fun r answer hc => ht r answer (List.mem_append_left more hc),
    fun r answer hc => ht r answer (List.mem_append_right calls hc)⟩

theorem append (hcalls : Truthful alive calls) (hmore : Truthful alive more) :
    Truthful alive (calls ++ more) := fun r answer hc =>
  (List.mem_append.mp hc).elim (hcalls r answer) (hmore r answer)

/-- One more answer was given. -/
theorem answer (ht : Truthful alive calls) (r : Handle) :
    Truthful alive (calls ++ [.isAlive r (alive r)]) := by
  refine ht.append fun q answer hmem => ?_
  rw [List.mem_singleton, Call.isAlive.injEq] at hmem
  rw [hmem.1, hmem.2]

end Truthful

namespace Hooks

variable {γ : Type} (hooks : Hooks γ) (I : List Call → World γ → Prop)

/-- The collector stores links and finishes its work; its invariant is not
about links. -/
structure Storing : Prop where
  relink : ∀ {calls w} {h : Heap}, I calls w → w.heap.SameObjects h → I calls { w with heap := h }
  store : ∀ {calls w} {o : Handle} (v : Option Handle), I calls w → w.heap.holds o = true →
    ∃ w', hooks.enqueue ⟨o, .discovered⟩ v w = .ok () w' ∧
      (w.heap.write ⟨o, .discovered⟩ v).Keeps w'.heap ∧
      I (calls ++ [.store ⟨o, .discovered⟩ v]) w'
  complete : ∀ {calls w}, I calls w →
    ∃ w', hooks.complete w = .ok () w' ∧ w.heap.Keeps w'.heap ∧ I (calls ++ [.complete]) w'
  prepare : ∀ {calls w} (queues : Nat) (multi marksAlive : Bool), I calls w →
    I calls { w with collector := hooks.prepare queues multi marksAlive w.collector }
  enterUnit : ∀ {calls w} (queue : Nat) (worker : Option Nat), I calls w →
    I calls { w with collector := hooks.enterUnit queue worker w.collector }

/-- The collector answers what is alive. -/
structure Answering : Prop where
  relink : ∀ {calls w} {h : Heap}, I calls w → w.heap.SameObjects h → I calls { w with heap := h }
  isAlive : ∀ {calls w} {r : Handle}, I calls w → w.heap.holds r = true →
    ∃ answer w', hooks.isAlive r w = .ok answer w' ∧ w.heap.Keeps w'.heap ∧
      I (calls ++ [.isAlive r answer]) w'

/-- The collector also answers what is alive, and keeps that alive. -/
structure Resolving : Prop extends hooks.Storing I, hooks.Answering I where
  keepAlive : ∀ {calls w} {o r : Handle}, I calls w → w.heap.target o = some r →
    w.heap.holds r = true → .isAlive r true ∈ calls →
    ∃ w', hooks.keepAlive ⟨o, .referent⟩ w = .ok () w' ∧ w.heap.Keeps w'.heap ∧
      I (calls ++ [.keepAlive o r]) w'

/-- The collector makes the targets of final references reachable. -/
structure KeepingFinals : Prop extends hooks.Storing I where
  keepAlive : ∀ {calls w} {o r : Handle}, I calls w → w.heap.target o = some r →
    w.heap.holds r = true →
    ∃ w', hooks.keepAlive ⟨o, .referent⟩ w = .ok () w' ∧ w.heap.Keeps w'.heap ∧
      I (calls ++ [.keepAlive o r]) w'

/-- Who keeps any target alive also keeps alive what was found alive. -/
theorem KeepingFinals.resolving {hooks : Hooks γ} {I : List Call → World γ → Prop}
    (hk : hooks.KeepingFinals I) (ha : hooks.Answering I) : hooks.Resolving I where
  toStoring := hk.toStoring
  isAlive := ha.isAlive
  keepAlive hI ht hr _ := hk.keepAlive hI ht hr

end Hooks

end Referents
