import Referents.Cycle
import Referents.Resolution

/-!
# Precleaning

A concurrent collector may shorten the lists before the pause in which they
are resolved: references whose target was cleared, or has become reachable,
are dropped early.  Nothing is kept alive and nothing is published, so the
pass may stop at any point.  It asks whether to stop before every list, and
before every reference.
-/

namespace Referents

variable {γ : Type}

namespace Cursor

/-- Visits the members of a list until the end or until asked to stop, and
tells whether it was asked to stop. -/
def precleanFrom (hooks : Hooks γ) (check : YieldCheck γ) : Nat → Cursor → Act γ (Bool × Cursor)
  | 0, _ => throw .endless
  | fuel + 1, c => do
      if !c.hasCurrent then return (false, c)
      else if ← Act.ask check.atReference then return (true, c)
      else
        let c ← Act.read (c.load true)
        if ← pure c.referent.isNone <||> c.isReferentAlive hooks then
          let c ← Act.transform c.drop
          precleanFrom hooks check fuel (← Act.ofExcept c.skip)
        else precleanFrom hooks check fuel (← Act.ofExcept c.advance)

end Cursor

/-- Precleans one list, and tells whether it was cut short. -/
def precleanList (hooks : Hooks γ) (check : YieldCheck γ) (list : DiscoveredList) :
    Act γ (Bool × Cursor) := do
  let bound ← Cursor.visitBound <$> World.heap <$> get
  Cursor.precleanFrom hooks.dropOnly check bound (.start list)

/-- The name of the precleaning of a kind. -/
def precleanName (k : RefKind) : String := s!"Preclean {k.name}s"

namespace Step

/-- Precleans the lists of a kind from a queue on, `count` of them, and tells
whether that was cut short. -/
def precleanQueues (hooks : Hooks γ) (check : YieldCheck γ) (k : RefKind) :
    Nat → Nat → Step γ Bool
  | 0, _ => pure false
  | count + 1, queue => do
      if ← onWorld (Act.ask check.atList) then return true
      let list ← ofExcept ((← processor).list k queue)
      let (cut, c) ← onWorld (precleanList hooks check list)
      setProcessor ((← processor).setList k queue c.list)
      if cut then
        log (.precleanAborted k.name)
        return true
      if 0 < c.visited then
        write .trace s!" Dropped {c.dropped} Refs out of {c.visited} Refs in discovered list"
      precleanQueues hooks check k count (queue + 1)

/-- Precleans the lists of a kind, and tells whether that was cut short. -/
def precleanKind (hooks : Hooks γ) (check : YieldCheck γ) (k : RefKind) : Step γ Bool := do
  let name := precleanName k
  logLengths s!"{name} before" k
  let cut ← precleanQueues hooks check k (← processor).queues 0
  unless cut do logLengths s!"{name} after" k
  return cut

/-- Precleans the lists of several kinds; the timer records every kind that was begun. -/
def precleanKinds (hooks : Hooks γ) (check : YieldCheck γ) (readings : Readings) :
    List RefKind → Timer → Step γ (Bool × Timer)
  | [], timer => pure (false, timer)
  | k :: rest, timer => do
      let cut ← precleanKind hooks check k
      let timer := timer.record (precleanName k) (readings.took (.preclean k))
      if cut then return (true, timer) else precleanKinds hooks check readings rest timer

/-- Drops what needs no processing any more, and tells whether the pass was cut short. -/
def preclean (hooks : Hooks γ) (check : YieldCheck γ) (readings : Readings) :
    Step γ (Bool × Timer) :=
  precleanKinds hooks check readings RefKind.all {}

end Step

end Referents
