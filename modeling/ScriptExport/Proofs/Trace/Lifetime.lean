import Mathlib.Data.List.Induction
import ScriptExport.Proofs.Trace.Statistics

/-!
# The lifetime of a sink

What a sink was told decides what is in its logs (`LogSink.Tracks`): the lines that were sent are in
the event log or wait for it, and the first `finish` fixes the types that are counted. Every step
keeps that (`LogSink.Tracks.step`), so it holds of every history (`LogSink.tracks_run`), and closing the
sink brings the rest into the logs.
-/

namespace ScriptExport

/-! ## Histories -/

/-- The line that a step sends. -/
def SinkStep.line? : SinkStep → Option String
  | .event line => some line
  | _ => none

/-- The type that a step sends. -/
def SinkStep.type? : SinkStep → Option String
  | .typeSeen text => some text
  | _ => none

/-- The lines that were sent, in order. -/
def sentLines (steps : List SinkStep) : List String :=
  steps.filterMap SinkStep.line?

/-- The types that were sent, in order. -/
def seenTypes (steps : List SinkStep) : List String :=
  steps.filterMap SinkStep.type?

/-- The steps before the first `finish`; all steps if there is none. -/
def beforeFinish (steps : List SinkStep) : List SinkStep :=
  steps.takeWhile (· ≠ .finish)

theorem sentLines_append (steps later : List SinkStep) :
    sentLines (steps ++ later) = sentLines steps ++ sentLines later :=
  List.filterMap_append

theorem seenTypes_append (steps later : List SinkStep) :
    seenTypes (steps ++ later) = seenTypes steps ++ seenTypes later :=
  List.filterMap_append

theorem beforeFinish_cons (step : SinkStep) (steps : List SinkStep) :
    beforeFinish (step :: steps) = if step = .finish then [] else step :: beforeFinish steps := by
  by_cases h : step = .finish <;> simp [beforeFinish, h]

theorem beforeFinish_eq_self {steps : List SinkStep} (h : .finish ∉ steps) :
    beforeFinish steps = steps := by
  induction steps with
  | nil => rfl
  | cons step steps ih =>
    obtain ⟨hstep, hsteps⟩ := not_or.mp (mt List.mem_cons.mpr h)
    rw [beforeFinish_cons, if_neg (Ne.symm hstep), ih hsteps]

/-- What is told after a `finish` is not before the first one. -/
theorem beforeFinish_append {steps : List SinkStep} (h : .finish ∈ steps) (later : List SinkStep) :
    beforeFinish (steps ++ later) = beforeFinish steps := by
  induction steps with
  | nil => cases h
  | cons step steps ih =>
    rw [List.cons_append, beforeFinish_cons, beforeFinish_cons]
    split
    · rfl
    · next hstep => rw [ih ((List.mem_cons.mp h).resolve_left (Ne.symm hstep))]

theorem beforeFinish_append_finish (steps : List SinkStep) :
    beforeFinish (steps ++ [.finish]) = beforeFinish steps := by
  induction steps with
  | nil => rfl
  | cons step steps ih => rw [List.cons_append, beforeFinish_cons, beforeFinish_cons, ih]

/-! ## The logs -/

namespace LogSink

/-- The sink has been told the steps. -/
structure Tracks (steps : List SinkStep) (s : LogSink) : Prop where
  lines : s.written ++ s.pending = sentLines steps
  types : s.types = seenTypes steps
  counted : s.counted = if .finish ∈ steps then some (seenTypes (beforeFinish steps)) else none

namespace Tracks

variable {steps : List SinkStep} {s : LogSink}

/-- The types that are counted from the next `finish` on. -/
theorem counted_finish (h : s.Tracks steps) :
    s.finish.counted = some (seenTypes (beforeFinish steps)) := by
  unfold finish
  by_cases hmem : .finish ∈ steps
  · simp [h.counted, hmem]
  · simp [h.counted, hmem, h.types, beforeFinish_eq_self hmem]

theorem lines_finish (h : s.Tracks steps) :
    s.finish.written ++ s.finish.pending = sentLines steps := by
  rw [← h.lines]
  unfold finish
  split <;> simp

theorem types_finish (h : s.Tracks steps) : s.finish.types = seenTypes steps := by
  rw [← h.types]
  unfold finish
  split <;> rfl

/-- Only a `finish` changes what is counted. -/
theorem counted_append {next : SinkStep} (h : s.Tracks steps) (hnext : next ≠ .finish) :
    s.counted = if .finish ∈ steps ++ [next] then some (seenTypes (beforeFinish (steps ++ [next])))
      else none := by
  have hiff : .finish ∈ steps ++ [next] ↔ .finish ∈ steps := by simp [Ne.symm hnext]
  rw [h.counted, if_congr hiff rfl rfl]
  split
  · next hmem => rw [beforeFinish_append hmem]
  · rfl

/-- A sink is told one more step. -/
theorem step (h : s.Tracks steps) (next : SinkStep) : (s.step next).Tracks (steps ++ [next]) := by
  cases next with
  | event line =>
    refine ⟨?_, ?_, h.counted_append (by simp)⟩
    · rw [sentLines_append, ← h.lines, List.append_assoc]
      rfl
    · rw [seenTypes_append, ← h.types]
      exact (List.append_nil _).symm
  | typeSeen text =>
    refine ⟨?_, ?_, h.counted_append (by simp)⟩
    · rw [sentLines_append, ← h.lines]
      exact (List.append_nil _).symm
    · rw [seenTypes_append, ← h.types]
      rfl
  | finish =>
    refine ⟨?_, ?_, ?_⟩
    · rw [sentLines_append, ← h.lines_finish]
      exact (List.append_nil _).symm
    · rw [seenTypes_append, ← h.types_finish]
      exact (List.append_nil _).symm
    · rw [LogSink.step, h.counted_finish, if_pos (by simp), beforeFinish_append_finish]

end Tracks

/-- A sink keeps track of its steps. -/
theorem tracks_run (steps : List SinkStep) : (run {} steps).Tracks steps := by
  induction steps using List.reverseRecOn with
  | nil => exact ⟨rfl, rfl, rfl⟩
  | append_singleton steps next ih =>
    rw [run, List.foldl_append]
    exact ih.step next

/-- Closing brings every line into the event log and counts the types before the first `finish`. -/
theorem close_run (steps : List SinkStep) :
    (run {} steps).close.written = sentLines steps ∧
      (run {} steps).close.counted = some (seenTypes (beforeFinish steps)) :=
  ⟨(tracks_run steps).lines_finish, (tracks_run steps).counted_finish⟩

end LogSink

/-! ## The counts in memory -/

theorem MemorySink.counts_run (steps : List SinkStep) :
    Counts NameBefore (seenTypes steps) (run {} steps).counts.entries := by
  induction steps using List.reverseRecOn with
  | nil => exact .nil
  | append_singleton steps next ih =>
    rw [run, List.foldl_append, seenTypes_append]
    cases next with
    | event line => rwa [show seenTypes [.event line] = [] from rfl, List.append_nil]
    | typeSeen text => exact (ih.countName text).of_perm (List.perm_append_singleton text _).symm
    | finish => rwa [show seenTypes [.finish] = [] from rfl, List.append_nil]

/-- **The logs of a sink that was closed.** Whatever the sink was told, the statistics log has one row
for each type that was sent before the first `finish`, with the number of times it was sent, the most
frequent types first and equally frequent ones in name order. These are the rows that a sink in memory
has at that time. They do not depend on the order in which the types were sent, and nothing that is
sent after a `finish` changes them. The event log has all lines that were sent, in order. -/
theorem sink_lifetime (steps : List SinkStep) :
    let closed := (LogSink.run {} steps).close
    let names := seenTypes (beforeFinish steps)
    (∃ rows, Counts Precedes names rows ∧
      rows.Perm (MemorySink.run {} (beforeFinish steps)).counts.entries ∧
      closed.statisticsText =
        String.join (rows.map fun e => toString e.2 ++ "\t" ++ e.1 ++ "\n")) ∧
    (∀ other, (seenTypes (beforeFinish other)).Perm names →
      (LogSink.run {} other).close.statisticsText = closed.statisticsText) ∧
    (.finish ∈ steps → ∀ later,
      (LogSink.run {} (steps ++ later)).statisticsText = closed.statisticsText ∧
      (LogSink.run {} (steps ++ later)).close.statisticsText = closed.statisticsText) ∧
    closed.written = sentLines steps ∧
    closed.eventText = String.join ((sentLines steps).map (· ++ "\n")) := by
  intro closed names
  have htext : ∀ history, (LogSink.run {} history).close.statisticsText =
      statistics (seenTypes (beforeFinish history)) := by
    intro history
    rw [LogSink.statisticsText, (LogSink.close_run history).2, Option.getD_some]
  have hwritten : closed.written = sentLines steps := (LogSink.close_run steps).1
  refine ⟨⟨ranked names, counts_ranked names, ?_, htext steps⟩, ?_, ?_, hwritten, ?_⟩
  · exact (counts_ranked names).perm (MemorySink.counts_run (beforeFinish steps))
  · intro other hperm
    have hcounts := (counts_ranked (seenTypes (beforeFinish other))).of_perm hperm
    have hranked := hcounts.unique (counts_ranked names) fun _ _ => Precedes.asymm
    rw [htext, htext, statistics, statistics, hranked]
  · intro hfinish later
    have hlater : .finish ∈ steps ++ later := List.mem_append_left later hfinish
    have hcounted := (LogSink.tracks_run (steps ++ later)).counted
    rw [if_pos hlater, beforeFinish_append hfinish] at hcounted
    refine ⟨?_, ?_⟩
    · rw [LogSink.statisticsText, hcounted, Option.getD_some, htext]
    · rw [htext, htext, beforeFinish_append hfinish]
  · rw [LogSink.eventText, hwritten]

/-- A type that is seen after the end is not counted. -/
theorem sink_lifetime_late_types :
    let steps : List SinkStep :=
      [.typeSeen "int", .event "a", .typeSeen "bool", .typeSeen "int", .finish]
    let other : List SinkStep := [.typeSeen "bool", .typeSeen "int", .event "c", .typeSeen "int"]
    let later : List SinkStep := [.typeSeen "bool", .event "b", .finish]
    (LogSink.run {} other).close.statisticsText = (LogSink.run {} steps).close.statisticsText ∧
      (LogSink.run {} (steps ++ later)).close.statisticsText =
        (LogSink.run {} steps).close.statisticsText ∧
      (LogSink.run {} (steps ++ later)).close.written = ["a", "b"] := by
  intro steps other later
  obtain ⟨-, hother, hlater, -⟩ := sink_lifetime steps
  exact ⟨hother other (by decide), (hlater (by decide) later).2,
    (sink_lifetime (steps ++ later)).2.2.2.1⟩

end ScriptExport
