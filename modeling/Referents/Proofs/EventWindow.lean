import Referents.Proofs.Execution

/-!
# The events that a journal shows

A journal shows the last events that were worth recording since it was cleared.
Whoever wants to log an event may ask first whether the journal would record or
write it: leaving out what it would not changes nothing.

* `Journal.toList_record` — recording keeps the last events, as many as there is
  room for.
* `Journal.log_of_not_enabledFor` — an event that nobody would see changes nothing.
* `JournalOp.events_runAll` — what is recorded after any operations, by induction
  on them.
* `journal_shows_latest` — a new journal shows the last of the events that it was
  to keep, even if the others were never logged.
-/

namespace Referents

namespace Journal

variable {j : Journal} {sink : Sink} {e : Event} {es : List Event}

/-- The last 4096 of some events, or all of them if they are fewer. -/
def latest (es : List Event) : List Event := es.drop (es.length - 4096)

/-- Whether the level of an event passes the limit up to which events are recorded. -/
def admits (config : JournalConfig) (e : Event) : Bool :=
  (e.level config.verbose).passes (some config.level)

/-- What was lost before would be lost later. -/
theorem latest_latest_append (es fs : List Event) :
    latest (latest es ++ fs) = latest (es ++ fs) := by
  have hdrop : latest es ++ fs = (es ++ fs).drop (es.length - 4096) :=
    (List.drop_append_of_le_length (Nat.sub_le _ _)).symm
  have hcount : es.length - 4096 + (es.length + fs.length - (es.length - 4096) - 4096) =
      es.length + fs.length - 4096 := by omega
  rw [hdrop, latest, latest, List.drop_drop, List.length_drop, List.length_append, hcount]

theorem toList_record (hj : j.events.toList = latest es) :
    (j.record e).events.toList = latest (es ++ [e]) := by
  have hpush : (j.record e).events.toList = latest (j.events.toList ++ [e]) := by
    rw [record, capacity, Array.toList_push, latest, List.length_append, Array.length_toList,
      List.length_singleton]
    split
    · next hroom => rw [Nat.sub_eq_zero_of_le hroom, List.drop_zero]
    · next hfull =>
        have hsize : j.events.size = 4096 := by
          have hlength := congrArg List.length hj
          rw [latest, List.length_drop, Array.length_toList] at hlength
          omega
        have hpos : 0 < j.events.size := by rw [hsize]; decide
        rw [Array.eraseIdxIfInBounds, dif_pos hpos, Array.toList_eraseIdx, List.eraseIdx_zero,
          hsize, Nat.add_sub_cancel_left, List.drop_append_of_le_length hpos,
          List.drop_one]
  rw [hpush, hj, latest_latest_append]

/-- Logging records the event if the journal is on and admits it. -/
theorem log_fst (j : Journal) (sink : Sink) (e : Event) :
    (j.log sink e).1 = if j.enabled && admits j.config e then j.record e else j := by
  cases hon : j.enabled <;> cases hadmits : admits j.config e <;>
    simp_all [log, admits]

theorem config_log (j : Journal) (sink : Sink) (e : Event) :
    (j.log sink e).1.config = j.config := by
  rw [log_fst]
  split <;> rfl

theorem enabled_log (j : Journal) (sink : Sink) (e : Event) :
    (j.log sink e).1.enabled = j.enabled := by
  rw [log_fst]
  split <;> rfl

theorem toList_log (hj : j.events.toList = latest es) (sink : Sink) (e : Event) :
    (j.log sink e).1.events.toList =
      latest (es ++ if j.enabled && admits j.config e then [e] else []) := by
  rw [log_fst]
  split
  · exact toList_record hj
  · rw [List.append_nil, hj]

/-- An event that would be neither recorded nor written changes nothing. -/
theorem log_of_not_enabledFor (hunseen : j.enabledFor sink (e.level j.config.verbose) = false) :
    j.log sink e = (j, sink) := by
  unfold enabledFor at hunseen
  unfold log
  by_cases hon : j.enabled = true
  · obtain ⟨hrecord, hwrite⟩ : (e.level j.config.verbose).passes (some j.config.level) = false ∧
        (e.level j.config.verbose).passes sink.limit = false := by simpa [hon] using hunseen
    simp only [hon, if_true, hrecord, hwrite, Bool.false_eq_true, if_false]
  · rw [if_neg hon]

end Journal

/-- The lengths of lists that nobody would see are left out, and that changes nothing. -/
theorem Processor.logLengths_eq {p : Processor} {k : RefKind} {n : Nat} (sink : Sink)
    (label : String) (htotal : p.total k = .ok n) :
    p.logLengths sink label k = .ok (p.log sink (.listCounts label (p.lengths k) n)) := by
  unfold logLengths
  by_cases hseen : p.journal.enabledFor sink .trace = true
  · rw [if_pos hseen, except_bind_ok htotal]
    rfl
  · have hlog : p.journal.log sink (.listCounts label (p.lengths k) n) = (p.journal, sink) :=
      Journal.log_of_not_enabledFor (by simpa [Event.level] using hseen)
    rw [if_neg hseen, log, hlog]
    rfl

/-! ### Any operations -/

/-- What is done to a journal, and to the sink that it shares with others. -/
inductive JournalOp where
  | log (e : Event)
  | enable
  | disable
  | clear
  /-- The sink takes lines up to another level. -/
  | limit (level : Option Level)
  /-- The clock that lines are stamped by goes on. -/
  | tick (stamp : String)

namespace JournalOp

/-- Does it. -/
def run : JournalOp → Journal × Sink → Journal × Sink
  | .log e, (j, sink) => j.log sink e
  | .enable, (j, sink) => (j.setEnabled true, sink)
  | .disable, (j, sink) => (j.setEnabled false, sink)
  | .clear, (j, sink) => (j.clear, sink)
  | .limit level, (j, sink) => (j, { sink with limit := level })
  | .tick stamp, (j, sink) => (j, { sink with stamp := stamp })

/-- Does it, but skips an event if the journal says that nobody would see it. -/
def runIfSeen : JournalOp → Journal × Sink → Journal × Sink
  | .log e, (j, sink) =>
      if j.enabledFor sink (e.level j.config.verbose) then j.log sink e else (j, sink)
  | op, s => op.run s

/-- Does one thing after the other. -/
def runAll (ops : List JournalOp) (s : Journal × Sink) : Journal × Sink :=
  ops.foldl (fun s op => op.run s) s

/-- Does one thing after the other, but skips the events that nobody would see. -/
def runAllIfSeen (ops : List JournalOp) (s : Journal × Sink) : Journal × Sink :=
  ops.foldl (fun s op => op.runIfSeen s) s

/-- Whether everything recorded is forgotten. -/
def isClear : JournalOp → Bool
  | .clear => true
  | _ => false

/-- The events that a journal, which is on or off at first, is to keep: those that are logged
while it is on, are admitted, and are not cleared later. -/
def kept (config : JournalConfig) : Bool → List JournalOp → List Event
  | _, [] => []
  | on, .log e :: ops =>
      (if on && Journal.admits config e && !ops.any isClear then [e] else []) ++
        kept config on ops
  | _, .enable :: ops => kept config true ops
  | _, .disable :: ops => kept config false ops
  | on, .clear :: ops => kept config on ops
  | on, .limit _ :: ops => kept config on ops
  | on, .tick _ :: ops => kept config on ops

variable {s : Journal × Sink} {es : List Event}

/-- What a journal holds after some operations, and what it held before unless that was
cleared. -/
theorem events_runAll (ops : List JournalOp) (hs : s.1.events.toList = Journal.latest es) :
    (runAll ops s).1.events.toList =
      Journal.latest ((if ops.any isClear then [] else es) ++
        kept s.1.config s.1.enabled ops) := by
  induction ops generalizing s es with
  | nil => simpa [runAll, kept] using hs
  | cons op ops ih =>
      obtain ⟨j, sink⟩ := s
      cases op with
      | log e =>
          have hlog := ih (Journal.toList_log hs sink e)
          rw [Journal.config_log, Journal.enabled_log] at hlog
          refine hlog.trans ?_
          cases hclear : ops.any isClear <;> simp [kept, hclear, isClear]
      | enable => exact @ih (j.setEnabled true, sink) es hs
      | disable => exact @ih (j.setEnabled false, sink) es hs
      | clear =>
          have hcleared := @ih (j.clear, sink) [] rfl
          refine hcleared.trans ?_
          simp [kept, isClear, Journal.clear]
      | limit level => exact @ih (j, { sink with limit := level }) es hs
      | tick stamp => exact @ih (j, { sink with stamp := stamp }) es hs

/-- An operation does the same if it skips an event that nobody would see. -/
theorem runIfSeen_eq (op : JournalOp) (s : Journal × Sink) : op.runIfSeen s = op.run s := by
  obtain ⟨j, sink⟩ := s
  cases op with
  | log e =>
      by_cases hseen : j.enabledFor sink (e.level j.config.verbose) = true
      · exact if_pos hseen
      · have hlog := Journal.log_of_not_enabledFor (Bool.eq_false_of_not_eq_true hseen)
        exact (if_neg hseen).trans hlog.symm
  | _ => rfl

theorem runAllIfSeen_eq (ops : List JournalOp) (s : Journal × Sink) :
    runAllIfSeen ops s = runAll ops s := by
  simp only [runAllIfSeen, runAll, runIfSeen_eq]

end JournalOp

/-- However a journal is kept, and whatever is done to it and to its sink, it shows exactly the
last of the events that it was to keep, in order, as many as there is room for.  Skipping
whatever it says that nobody would see gives the same events and the same lines. -/
theorem journal_shows_latest (config : JournalConfig) (sink : Sink) (ops : List JournalOp) :
    (JournalOp.runAll ops ({ config }, sink)).1.events.toList =
      Journal.latest (JournalOp.kept config true ops) ∧
    JournalOp.runAllIfSeen ops ({ config }, sink) = JournalOp.runAll ops ({ config }, sink) := by
  constructor
  · have hnew : ({ config } : Journal).events.toList = Journal.latest [] := rfl
    have hevents := JournalOp.events_runAll (s := ({ config }, sink)) ops hnew
    simpa using hevents
  · exact JournalOp.runAllIfSeen_eq ops _

/-- A journal of information keeps the end of a phase if it is verbose, and else only the sum
of the cycle. -/
example (millis : Float) :
    [true, false].map (fun verbose =>
      (JournalOp.runAll [.log (.phaseStart "final" 2 true false), .log (.phaseEnd "final" millis),
          .log (.summary 0 0 1 0 millis)]
        ({ config := { level := .info, verbose } }, {})).1.events.toList) =
      [[.phaseEnd "final" millis, .summary 0 0 1 0 millis], [.summary 0 0 1 0 millis]] := rfl

end Referents
