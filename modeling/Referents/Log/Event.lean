import Referents.Decimal.Fixed
import Referents.Json.Value

/-!
# Logged events

An event says what a processing cycle did.  It is written either as a sentence
or as a JSON object whose first field is the type of the event.
-/

namespace Referents

/-- How important a line is, the most important first. -/
inductive Level where
  | error
  | warn
  | info
  | debug
  | trace
deriving DecidableEq

namespace Level

/-- The position of a level; a smaller one is more important. -/
def rank : Level → Nat
  | .error => 1
  | .warn => 2
  | .info => 3
  | .debug => 4
  | .trace => 5

/-- The name of a level. -/
def name : Level → String
  | .error => "ERROR"
  | .warn => "WARN"
  | .info => "INFO"
  | .debug => "DEBUG"
  | .trace => "TRACE"

/-- Whether a line of level `l` passes a limit; no limit means that nothing passes. -/
def passes (l : Level) (limit : Option Level) : Bool :=
  match limit with
  | none => false
  | some m => l.rank ≤ m.rank

end Level

/-- What happened. -/
inductive Event where
  /-- A phase is about to run. -/
  | phaseStart (phase : String) (queues : Nat) (multi marksAlive : Bool)
  /-- A phase had nothing to do. -/
  | phaseSkipped (phase reason : String)
  /-- A phase is over. -/
  | phaseEnd (phase : String) (millis : Float)
  /-- The lengths of the lists of a kind. -/
  | listCounts (label : String) (counts : List Nat) (total : Nat)
  /-- The lists of a kind were balanced. -/
  | balanced (kind : String) (total queues : Nat)
  /-- A list was resolved. -/
  | listProcessed (kind : String) (processed dropped : Nat)
  /-- Precleaning was cut short within a list. -/
  | precleanAborted (kind : String)
  /-- Everything discovered was given up. -/
  | discoveryAbandoned (references : Nat)
  /-- The clock of soft references was ahead of the time. -/
  | clockWarp (now clock : Int)
  /-- A processing cycle is over. -/
  | summary (soft weak final phantom : Nat) (millis : Float)

namespace Event

/-- How important an event is; the end of a phase is information if `verbose`. -/
def level (verbose : Bool) : Event → Level
  | .clockWarp .. => .warn
  | .summary .. => .info
  | .phaseEnd .. => if verbose then .info else .debug
  | .listCounts .. => .trace
  | .listProcessed .. => .trace
  | _ => .debug

/-- A duration in a sentence. -/
def millisText (millis : Float) : String := Decimal.fixed 3 millis ++ "ms"

/-- An event as a sentence. -/
def sentence : Event → String
  | .phaseStart phase queues multi marksAlive =>
      let model := if multi then "Multi" else "Single"
      s!"{phase} queues: {queues}, {model}, marks_oops_alive: {marksAlive}"
  | .phaseSkipped phase reason => s!"Skipped {phase} of Reference Processing: {reason}"
  | .phaseEnd phase millis => s!"{phase} {millisText millis}"
  | .listCounts label counts total =>
      let lengths := " ".intercalate (counts.map toString)
      s!"{label} {lengths} (total: {total})"
  | .balanced kind total queues => s!"Balanced {kind} {total} refs over {queues} queues"
  | .listProcessed kind processed dropped =>
      s!"Dropped {dropped} {kind} out of {processed} in discovered list"
  | .precleanAborted kind => s!"{kind} preclean aborted"
  | .discoveryAbandoned references =>
      s!"Abandoned partial discovery of {references} references"
  | .clockWarp now clock =>
      s!"time warp: {now} < {clock}, soft reference clock not updated"
  | .summary soft weak final phantom millis =>
      s!"Ref Counts: Soft: {soft} Weak: {weak} Final: {final} Phantom: {phantom} ({millisText millis})"

/-- The fields of an event in the order in which they are written. -/
def fields : Event → List (String × JsonValue)
  | .phaseStart phase queues multi marksAlive =>
      [("type", .str "phase_start"), ("phase", .str phase), ("queues", .nat queues),
        ("mt", .bool multi), ("marks_oops_alive", .bool marksAlive)]
  | .phaseSkipped phase reason =>
      [("type", .str "phase_skipped"), ("phase", .str phase), ("reason", .str reason)]
  | .phaseEnd phase millis =>
      [("type", .str "phase_end"), ("phase", .str phase), ("duration_ms", .double millis)]
  | .listCounts label counts total =>
      [("type", .str "list_counts"), ("label", .str label),
        ("counts", .array (counts.map .nat)), ("total", .nat total)]
  | .balanced kind total queues =>
      [("type", .str "balanced"), ("kind", .str kind), ("total", .nat total),
        ("num_queues", .nat queues)]
  | .listProcessed kind processed dropped =>
      [("type", .str "list_processed"), ("kind", .str kind), ("processed", .nat processed),
        ("dropped", .nat dropped)]
  | .precleanAborted kind => [("type", .str "preclean_aborted"), ("kind", .str kind)]
  | .discoveryAbandoned references =>
      [("type", .str "discovery_abandoned"), ("references", .nat references)]
  | .clockWarp now clock =>
      [("type", .str "clock_warp"), ("now", .int now), ("clock", .int clock)]
  | .summary soft weak final phantom millis =>
      [("type", .str "summary"), ("soft", .nat soft), ("weak", .nat weak),
        ("final", .nat final), ("phantom", .nat phantom), ("total_ms", .double millis)]

/-- An event as a JSON value. -/
def json (e : Event) : JsonValue := .object e.fields

end Event

end Referents
