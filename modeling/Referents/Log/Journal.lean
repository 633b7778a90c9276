import Referents.Log.Event

/-!
# The journal and the sink

A **sink** takes the lines that pass a limit which everybody shares.  A
**journal** belongs to one processor: it keeps the last events that pass a
limit of its own, and writes the events that pass the sink's limit to it.
While a journal is switched off it does neither.
-/

namespace Referents

/-- Where lines go. -/
structure Sink where
  /-- The least important level that is taken; nothing is taken without one. -/
  limit : Option Level := none
  /-- The lines so far, the last one first. -/
  reversed : List (Level × String) := []
  /-- The reading of the wall clock that lines are stamped with. -/
  stamp : String := ""

namespace Sink

/-- Takes a line if its level passes. -/
def write (s : Sink) (level : Level) (line : String) : Sink :=
  if level.passes s.limit then { s with reversed := (level, line) :: s.reversed } else s

/-- The lines so far, in order. -/
def lines (s : Sink) : List (Level × String) := s.reversed.reverse

/-- Forgets the lines. -/
def clear (s : Sink) : Sink := { s with reversed := [] }

end Sink

/-- How a journal is kept. -/
structure JournalConfig where
  /-- The least important level that is recorded. -/
  level : Level := .debug
  /-- Whether events are written as JSON lines. -/
  json : Bool := false
  /-- Whether lines start with the time. -/
  timestamps : Bool := false
  /-- Whether the end of a phase is information. -/
  verbose : Bool := false
deriving DecidableEq

/-- The last events of a processor. -/
structure Journal where
  config : JournalConfig
  enabled : Bool := true
  /-- The recorded events, oldest first. -/
  events : Array Event := #[]

namespace Journal

/-- How many events a journal holds. -/
def capacity : Nat := 4096

/-- Whether an event of level `l` would be recorded or written. -/
def enabledFor (j : Journal) (sink : Sink) (l : Level) : Bool :=
  j.enabled && (l.passes (some j.config.level) || l.passes sink.limit)

/-- The line for an event. -/
def line (j : Journal) (sink : Sink) (e : Event) : String :=
  let body := if j.config.json then e.json.text else e.sentence
  if j.config.timestamps then s!"[{sink.stamp}] {body}" else body

/-- Records an event at the end; a full journal loses its oldest event. -/
def record (j : Journal) (e : Event) : Journal :=
  let events := if j.events.size < capacity then j.events else j.events.eraseIdxIfInBounds 0
  { j with events := events.push e }

/-- Writes and records an event. -/
def log (j : Journal) (sink : Sink) (e : Event) : Journal × Sink :=
  if j.enabled then
    let level := e.level j.config.verbose
    let sink := if level.passes sink.limit then sink.write level (j.line sink e) else sink
    let j := if level.passes (some j.config.level) then j.record e else j
    (j, sink)
  else (j, sink)

/-- Switches the journal on or off. -/
def setEnabled (j : Journal) (on : Bool) : Journal := { j with enabled := on }

/-- Forgets the recorded events. -/
def clear (j : Journal) : Journal := { j with events := #[] }

end Journal

end Referents
