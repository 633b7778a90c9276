import Referents.Timing.PhaseTimes

/-!
# Timers

A timer collects the names and durations of finished phases.  A phase that is
timed as a scope is recorded when the scope is left, so inner scopes come
before the scope around them.
-/

namespace Referents

/-- The finished phases, in the order in which they ended. -/
structure Timer where
  phases : Array (String × Float) := #[]

namespace Timer

/-- Records a finished phase. -/
def record (t : Timer) (name : String) (ns : Nat) : Timer :=
  { phases := t.phases.push (name, millisOfNanos ns) }

/-- Runs a scope that takes `ns` nanoseconds, and records it afterwards. -/
def during (t : Timer) (name : String) (ns : Nat) (body : Timer → Timer) : Timer :=
  (body t).record name ns

/-- The names of the finished phases. -/
def names (t : Timer) : List String := t.phases.toList.map Prod.fst

end Timer

end Referents
