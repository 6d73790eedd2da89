import ScriptExport.Proofs.Analysis.Growth
import ScriptExport.Proofs.Analysis.Simulation

/-!
# Traced and untraced analyses

An analysis that keeps a trace and one that keeps none go through the same states but for the trace,
and the trace tells of each record and each diagnostic exactly once, in order. Both are one relation
between the two states (`State.Traces`): the traced state is the untraced one with a log of how it came
about. Notes, diagnostics and records keep it, so it is a simulation (`simulation_traces`), and the two
walks keep it.
-/

namespace ScriptExport

namespace Event

/-- The kind and the qualified name of the record that an event tells of. -/
def emission? : Event → Option (String × String)
  | emitted kind qualifiedName => some (kind, qualifiedName)
  | _ => none

/-- The kind and the message of the diagnostic that an event tells of. -/
def diagnosis? : Event → Option (String × String)
  | diagnosed kind message => some (kind, message)
  | _ => none

/-- Whether the event marks an end of a unit. -/
def marksUnit : Event → Bool
  | unitStarted _ | unitFinished _ _ _ => true
  | _ => false

theorem of_isSilent {e : Event} (h : e.isSilent = true) :
    e.emission? = none ∧ e.diagnosis? = none ∧ e.marksUnit = false := by
  cases e with
  | visited => exact ⟨rfl, rfl, rfl⟩
  | skipped => exact ⟨rfl, rfl, rfl⟩
  | inherited => exact ⟨rfl, rfl, rfl⟩
  | _ => cases h

end Event

/-- The events of a trace. -/
def eventsOf (trace : List TraceStep) : List Event :=
  trace.filterMap TraceStep.event?

theorem eventsOf_push_event (trace : Array TraceStep) (e : Event) :
    eventsOf (trace.push (.event e)).toList = eventsOf trace.toList ++ [e] := by
  simp [eventsOf, TraceStep.event?]

theorem eventsOf_push_typeSeen (trace : Array TraceStep) (text : String) :
    eventsOf (trace.push (.typeSeen text)).toList = eventsOf trace.toList := by
  simp [eventsOf, TraceStep.event?]

namespace Analysis

/-- The events between the ends of a unit tell of the records and the diagnostics of a state. -/
structure TellsOf (events : List Event) (s : State) : Prop where
  emissions : events.filterMap Event.emission? =
    s.records.toList.map fun r => (r.kind.name, r.qualifiedName)
  diagnoses : events.filterMap Event.diagnosis? =
    s.diagnostics.toList.map fun d => (d.kind.label, d.message)
  inside : ∀ e ∈ events, e.marksUnit = false

namespace TellsOf

variable {events : List Event} {s : State}

/-- An event that tells of nothing keeps a log in step. -/
theorem silent (h : TellsOf events s) {e : Event} (he : e.isSilent = true) :
    TellsOf (events ++ [e]) s := by
  obtain ⟨hemission, hdiagnosis, hmarks⟩ := Event.of_isSilent he
  constructor
  case emissions => simp [h.emissions, hemission]
  case diagnoses => simp [h.diagnoses, hdiagnosis]
  case inside =>
    intro e' he'
    rcases List.mem_append.mp he' with he' | he'
    · exact h.inside e' he'
    · rw [List.mem_singleton.mp he']
      exact hmarks

theorem report (h : TellsOf events s) (d : Diagnostic) :
    TellsOf (events ++ [.diagnosed d.kind.label d.message]) (s.report d) := by
  constructor
  case emissions => simp [h.emissions, Event.emission?, State.report, State.log, State.note]
  case diagnoses => simp [h.diagnoses, Event.diagnosis?, State.report, State.log, State.note]
  case inside =>
    intro e he
    rcases List.mem_append.mp he with he | he
    · exact h.inside e he
    · rw [List.mem_singleton.mp he]
      rfl

theorem push (h : TellsOf events s) (r : ExportRecord) :
    TellsOf (events ++ [.emitted r.kind.name r.qualifiedName]) (s.push r) := by
  constructor
  case emissions => simp [h.emissions, Event.emission?, State.push, State.log, State.note]
  case diagnoses => simp [h.diagnoses, Event.diagnosis?, State.push, State.log, State.note]
  case inside =>
    intro e he
    rcases List.mem_append.mp he with he | he
    · exact h.inside e he
    · rw [List.mem_singleton.mp he]
      rfl

end TellsOf

/-- `s` is the untraced state `t` with a log of how it came about. -/
structure State.Traces (file : String) (s t : State) : Prop where
  untraced : t.trace = none
  log : ∃ trace events, s = { t with trace := some trace } ∧
    eventsOf trace.toList = .unitStarted file :: events ∧ TellsOf events t

namespace State.Traces

variable {file : String} {s t : State}

/-- The states differ in the trace alone. -/
theorem eq_with_trace (h : s.Traces file t) : s = { t with trace := s.trace } := by
  obtain ⟨_, _, rfl, _⟩ := h.log
  rfl

/-! ### Changes -/

section Changes

variable (h : s.Traces file t)
include h

/-- An update that changes neither trace, records nor diagnostics. -/
theorem update (f : State → State)
    (hf : ∀ trace, f { t with trace } = { f t with trace })
    (hr : (f t).records = t.records) (hd : (f t).diagnostics = t.diagnostics) :
    (f s).Traces file (f t) := by
  obtain ⟨trace, events, rfl, hevents, htells⟩ := h.log
  refine ⟨?_, trace, events, hf _, hevents, ?_⟩
  · have hnone := hf none
    rw [← h.untraced] at hnone
    exact (congrArg State.trace hnone).trans h.untraced
  · exact ⟨hr ▸ htells.emissions, hd ▸ htells.diagnoses, htells.inside⟩

/-- Notes keep the traced state in step. -/
theorem note {step : TraceStep} (hstep : ∀ e, step.event? = some e → e.isSilent = true) :
    (s.note step).Traces file (t.note step) := by
  obtain ⟨trace, events, rfl, hevents, htells⟩ := h.log
  rw [State.note_eq_self h.untraced]
  cases step with
  | event e =>
    refine ⟨h.untraced, trace.push (.event e), events ++ [e], rfl, ?_, htells.silent (hstep e rfl)⟩
    rw [eventsOf_push_event, hevents, List.cons_append]
  | typeSeen text =>
    refine ⟨h.untraced, trace.push (.typeSeen text), events, rfl, ?_, htells⟩
    rw [eventsOf_push_typeSeen, hevents]

theorem report (d : Diagnostic) : (s.report d).Traces file (t.report d) := by
  obtain ⟨trace, events, rfl, hevents, htells⟩ := h.log
  have htrace : (t.report d).trace = none := by
    simp [State.report, State.log, State.note, h.untraced]
  refine ⟨htrace, trace.push (.event (.diagnosed d.kind.label d.message)), _, rfl, ?_,
    htells.report d⟩
  rw [eventsOf_push_event, hevents, List.cons_append]

theorem push (r : ExportRecord) : (s.push r).Traces file (t.push r) := by
  obtain ⟨trace, events, rfl, hevents, htells⟩ := h.log
  have htrace : (t.push r).trace = none := by
    simp [State.push, State.log, State.note, h.untraced]
  refine ⟨htrace, trace.push (.event (.emitted r.kind.name r.qualifiedName)), _, rfl, ?_,
    htells.push r⟩
  rw [eventsOf_push_event, hevents, List.cons_append]

end Changes

end State.Traces

/-- What keeps a trace and what keeps none go on in the same way. -/
theorem simulation_traces (file : String) : Simulation id (State.Traces file) where
  identities h := by rw [h.eq_with_trace]
  constants h := by rw [h.eq_with_trace]
  containers h := by rw [h.eq_with_trace]
  containerNames h := by rw [h.eq_with_trace]
  counter h := by rw [h.eq_with_trace]
  note h hstep := h.note hstep
  report d h := h.report d
  push r h := h.push r
  update constants containers containerNames counter h :=
    h.update (fun s => { s with constants, containers, containerNames, counter }) (fun _ => rfl) rfl
      rfl

theorem traces_ofUnit (u : TranslationUnit) :
    (Surface.ofUnit true u).state.Traces u.filePath (Surface.ofUnit false u).state :=
  ⟨rfl, _, [], rfl, rfl, ⟨rfl, rfl, fun _ he => by cases he⟩⟩

/-- The traced walk through a unit traces the untraced one. -/
theorem traces_walk (o : Options) (u : TranslationUnit) :
    (walk (Context.ofUnit o u) u.decls (Surface.ofUnit true u).state).Traces u.filePath
      (walk (Context.ofUnit o u) u.decls (Surface.ofUnit false u).state) :=
  (simulation_traces u.filePath).walk _ _ (traces_ofUnit u)

end Analysis

open Analysis

/-- An analysis has the same exports with a trace and without one. -/
theorem map_exports_analyzeTraced (o : Options) (traced : Bool) (u : TranslationUnit) :
    (analyzeTraced o traced u).map (·.exports) = analyze o u := by
  cases traced with
  | false => rfl
  | true =>
    have hwalk := traces_walk o u
    have hrecords : (run o true u).records = (run o false u).records :=
      (congrArg State.records hwalk.eq_with_trace :)
    have hdiagnostics : (run o true u).diagnostics = (run o false u).diagnostics :=
      (congrArg State.diagnostics hwalk.eq_with_trace :)
    unfold analyze analyzeTraced
    cases u.check o with
    | error e => rfl
    | ok _ =>
      dsimp only [Except.map, State.result]
      rw [hrecords, hdiagnostics]

/-- The trace of an analysis ends with the counts of its records and diagnostics. -/
theorem Analysis.eventsOf_result (o : Options) (u : TranslationUnit) {trace : Array TraceStep}
    (h : (walk (Context.ofUnit o u) u.decls (Surface.ofUnit true u).state).trace = some trace) :
    eventsOf ((run o true u).result u.filePath).trace =
      eventsOf trace.toList ++ [.unitFinished u.filePath (run o true u).records.size
        (run o true u).diagnostics.size] := by
  have htrace : (run o true u).trace = some (trace.push (.event (.unitFinished u.filePath
      (run o true u).records.size (run o true u).diagnostics.size))) := by
    show (walk _ _ (Surface.ofUnit true u).state).trace.map (·.push _) = _
    rw [h]
    rfl
  unfold State.result
  dsimp only
  rw [htrace]
  exact eventsOf_push_event _ _

/-- **Traces.** The analysis of an accepted unit has the same records and diagnostics with a trace and
without one. The events of its trace begin with the start of the unit and end with its end, which
counts the records and the diagnostics. The events between them that tell of records tell of the
records of the result, in order and no others, and so do those that tell of diagnostics. -/
theorem analyzeTraced_events (o : Options) (u : TranslationUnit) (h : u.check o = .ok ()) :
    ∃ traced untraced inner, analyzeTraced o true u = .ok traced ∧
      analyzeTraced o false u = .ok untraced ∧ traced.exports = untraced.exports ∧
      traced.trace.filterMap TraceStep.event? =
        .unitStarted u.filePath :: inner
          ++ [.unitFinished u.filePath traced.exports.records.length
            traced.exports.diagnostics.length] ∧
      inner.filterMap Event.emission? =
        traced.exports.records.map (fun r => (r.kind.name, r.qualifiedName)) ∧
      inner.filterMap Event.diagnosis? =
        traced.exports.diagnostics.map (fun d => (d.kind.label, d.message)) ∧
      ∀ e ∈ inner, e.marksUnit = false := by
  have hwalk := traces_walk o u
  obtain ⟨trace, inner, hstate, hevents, htells⟩ := hwalk.log
  have hrecords : (run o true u).records = (run o false u).records :=
    (congrArg State.records hwalk.eq_with_trace :)
  have hdiagnostics : (run o true u).diagnostics = (run o false u).diagnostics :=
    (congrArg State.diagnostics hwalk.eq_with_trace :)
  refine ⟨(run o true u).result u.filePath, (run o false u).result u.filePath, inner, ?_, ?_, ?_,
    ?_, ?_, ?_, htells.inside⟩
  · unfold analyzeTraced
    rw [h]
    rfl
  · unfold analyzeTraced
    rw [h]
    rfl
  · unfold State.result
    rw [hrecords, hdiagnostics]
  · refine (eventsOf_result o u (congrArg State.trace hstate)).trans ?_
    rw [hevents]
    rfl
  · show _ = (run o true u).records.toList.map _
    rw [hrecords]
    exact htells.emissions
  · show _ = (run o true u).diagnostics.toList.map _
    rw [hdiagnostics]
    exact htells.diagnoses

/-- A class without a name is reported and not exported; the one after it is. -/
theorem analyzeTraced_events_unnamed_class :
    let nameless := Decl.record { name := " ", annotations := ["lua_export_class"] } {} []
    let hero := Decl.record { name := "Hero", annotations := ["lua_export_class"] } {} []
    let u : TranslationUnit := { filePath := "hero.h", decls := [nameless, hero] }
    u.check {} = .ok () ∧
      ∃ traced untraced inner, analyzeTraced {} true u = .ok traced ∧
        analyzeTraced {} false u = .ok untraced ∧ traced.exports = untraced.exports ∧
        traced.trace.filterMap TraceStep.event? =
          .unitStarted "hero.h" :: inner
            ++ [.unitFinished "hero.h" traced.exports.records.length
              traced.exports.diagnostics.length] ∧
        inner.filterMap Event.emission? =
          traced.exports.records.map (fun r => (r.kind.name, r.qualifiedName)) ∧
        inner.filterMap Event.diagnosis? =
          traced.exports.diagnostics.map (fun d => (d.kind.label, d.message)) ∧
        ∀ e ∈ inner, e.marksUnit = false := by
  intro nameless hero u
  have haccepted : u.check {} = .ok () := TranslationUnit.check_default (by decide) rfl
  exact ⟨haccepted, analyzeTraced_events {} u haccepted⟩

end ScriptExport
