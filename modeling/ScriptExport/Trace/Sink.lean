import ScriptExport.Trace.Event
import ScriptExport.Trace.Tally

/-!
# Trace logs

A trace goes to an event log and a statistics log. `LogSink` is what has been sent and what has
reached the logs: finishing for the first time brings all events so far into the event log and fixes the
statistics; events sent later reach the event log when the sink is closed, and types sent later count
no more.
-/

namespace ScriptExport

/-- What a sink is told. -/
inductive SinkStep where
  /-- A line of the event log. -/
  | event (line : String)
  | typeSeen (text : String)
  | finish
deriving DecidableEq, Repr

/-- A sink for traces. -/
structure LogSink where
  /-- The lines in the event log. -/
  written : List String := []
  /-- Lines that were sent and are not in the event log yet. -/
  pending : List String := []
  /-- The types that were sent. -/
  types : List String := []
  /-- The types that the statistics log counts, once it is fixed. -/
  counted : Option (List String) := none
deriving DecidableEq, Repr

namespace LogSink

/-- Bring everything into the logs, unless that has happened before. -/
def finish (s : LogSink) : LogSink :=
  match s.counted with
  | some _ => s
  | none => { s with written := s.written ++ s.pending, pending := [], counted := some s.types }

/-- Tell the sink one thing. -/
def step (s : LogSink) : SinkStep → LogSink
  | .event line => { s with pending := s.pending ++ [line] }
  | .typeSeen text => { s with types := s.types ++ [text] }
  | .finish => s.finish

/-- Tell the sink several things. -/
def run (s : LogSink) (steps : List SinkStep) : LogSink :=
  steps.foldl step s

/-- Finish the sink and bring what was sent later into the event log. -/
def close (s : LogSink) : LogSink :=
  let s := s.finish
  { s with written := s.written ++ s.pending, pending := [] }

/-- The text of the event log. -/
def eventText (s : LogSink) : String :=
  String.join (s.written.map (· ++ "\n"))

/-- The text of the statistics log. -/
def statisticsText (s : LogSink) : String :=
  statistics (s.counted.getD [])

end LogSink

end ScriptExport
