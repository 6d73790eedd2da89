import ScriptExport.Proofs.Command.Strict
import ScriptExport.Proofs.Host.Sparing

/-!
# What the stages of a command leave alone

Settings, inputs and units are only read, and the logs of a run are the only files that its stages write.
So everything up to a manifest spares each place that has none of the logs (`PipelineRun.spares`), and so
does what a run does before its command (`spares_beginRun`).
-/

namespace ScriptExport

open World (Sparing)

/-! ## Results of failing actions -/

/-- A sequence fails at its first or at a later step. -/
theorem World.bind_eq_error {ε α β : Type} {w s : World} {e : ε} {x : ExceptT ε (StateM World) α}
    {k : α → ExceptT ε (StateM World) β} (h : (x >>= k).run w = (.error e, s)) :
    x.run w = (.error e, s) ∨
      ∃ a mid, x.run w = (.ok a, mid) ∧ (k a).run mid = (.error e, s) := by
  rw [ExceptT.run_bind] at h
  cases hx : x.run w with
  | mk result mid =>
    rw [World.bind_of_eq hx] at h
    cases result with
    | error e =>
      cases h
      exact .inl rfl
    | ok a => exact .inr ⟨a, mid, rfl, h⟩

/-- What would have thrown a fault has succeeded. -/
theorem orThrow_eq_ok {ε α : Type} {wrap : ε → CommandError} {x : StateM World (Except ε α)}
    {w s : World} {a : α}
    (h : (orThrow wrap x : ExceptT CommandError (StateM World) α).run w = (.ok a, s)) :
    x w = (.ok a, s) := by
  obtain ⟨result, mid, hx, h⟩ := World.bind_eq_ok h
  cases hx
  split at h
  · cases h
  · next hresult =>
    cases h
    exact Prod.ext hresult rfl

/-- A fault is thrown wrapped. -/
theorem orThrow_eq_error {ε α : Type} {wrap : ε → CommandError} {x : StateM World (Except ε α)}
    {w s : World} {e : CommandError}
    (h : (orThrow wrap x : ExceptT CommandError (StateM World) α).run w = (.error e, s)) :
    ∃ fault, x w = (.error fault, s) ∧ e = wrap fault := by
  obtain hlift | ⟨result, mid, hx, h⟩ := World.bind_eq_error h
  · cases hlift
  cases hx
  split at h
  · next fault hresult =>
    cases h
    exact ⟨fault, Prod.ext hresult rfl, rfl⟩
  · cases h

/-! ## Stages -/

section Stages

variable {place : Place}

/-- The logs are written elsewhere. -/
def LogSettings.Avoids (logs : LogSettings) (place : Place) : Prop :=
  Place.ofPath logs.eventLogPath ≠ place ∧ Place.ofPath logs.statsLogPath ≠ place

/-- Throwing a fault touches no file. -/
theorem sparing_orThrow {ε α : Type} {wrap : ε → CommandError} {x : StateM World (Except ε α)}
    (h : Sparing place x) :
    Sparing place (orThrow wrap x : ExceptT CommandError (StateM World) α).run := by
  unfold orThrow
  refine .run_bind_lift h fun result => ?_
  cases result with
  | error e => exact .pure _
  | ok a => exact .pure _

theorem sparing_homeSettingsDirectory? :
    Sparing place (homeSettingsDirectory? : StateM World (Option String)) := by
  unfold homeSettingsDirectory?
  refine .bind (.ask _) fun home => ?_
  cases home with
  | none => exact .pure _
  | some home => exact .pure _

/-- Looking for the settings spares every place. -/
theorem sparing_settingsPath : Sparing place (settingsPath : StateM World String) := by
  unfold settingsPath
  refine .bind (.ask _) fun given => ?_
  dsimp only
  split
  · exact .pure _
  · exact .bind sparing_homeSettingsDirectory? fun _ => .pure _

variable (path : String)

/-- Loading settings spares every place. -/
theorem sparing_loadSettings :
    Sparing place (loadSettings path : StateM World (Except SettingsError Settings)) := by
  unfold loadSettings
  refine .bind (.ask _) fun found => ?_
  split
  · refine .bind (.ask _) fun text => ?_
    cases text with
    | error fault => exact .pure _
    | ok text =>
      dsimp only
      split
      · exact .pure _
      · exact .pure _
  · exact .pure _

/-- Finding the settings in force spares every place. -/
theorem sparing_currentSettings :
    Sparing place (do orThrow .settings (loadSettings (← settingsPath (m := StateM World))) :
      ExceptT CommandError (StateM World) Settings).run :=
  .run_bind_lift sparing_settingsPath fun path => sparing_orThrow (sparing_loadSettings path)

/-- Listing a directory spares every place. -/
theorem sparing_expandInput :
    Sparing place (expandInput path : ExceptT CommandError (StateM World) (List String)).run := by
  unfold expandInput
  refine .run_bind_lift (.ask _) fun found => ?_
  split
  · exact .pure _
  · refine .run_bind_lift (.ask _) fun isFile => ?_
    split
    · exact .pure _
    · exact .run_bind_lift (.ask _) fun _ => .pure _

/-- Collecting inputs spares every place. -/
theorem sparing_collectInputs (paths : List String) :
    Sparing place (collectInputs paths : ExceptT CommandError (StateM World) (List String)).run := by
  unfold collectInputs
  refine .run_bind (.run_mapM sparing_expandInput paths) fun inputs => ?_
  dsimp only
  split
  · exact .pure _
  · exact .pure _

/-- Loading a unit spares every place. -/
theorem sparing_loadUnit :
    Sparing place (loadUnit path : ExceptT CommandError (StateM World) LoadedUnit).run := by
  unfold loadUnit
  refine .run_bind_lift (.ask _) fun text => ?_
  cases text with
  | error fault => exact .pure _
  | ok text =>
    dsimp only
    split
    · exact .pure _
    · exact .pure _

/-- Making a parent directory spares every place. -/
theorem sparing_makeParent :
    Sparing place (makeParent path : StateM World (Except FileFault Unit)) := by
  unfold makeParent
  split
  · exact .pure _
  · split
    · exact .pure _
    · exact .makeDirectories _

/-- Opening logs spares the places they avoid. -/
theorem sparing_openLogs {logs : LogSettings} (h : logs.Avoids place) :
    Sparing place (openLogs logs : StateM World (Except FileFault Unit)) := by
  unfold openLogs
  refine .bind (sparing_makeParent _) fun events => ?_
  cases events with
  | error fault => exact .pure _
  | ok _ =>
    refine .bind (sparing_makeParent _) fun statistics => ?_
    cases statistics with
    | error fault => exact .pure _
    | ok _ =>
      refine .bind (.write h.1 _) fun written => ?_
      cases written with
      | error fault => exact .pure _
      | ok _ => exact .write h.2 _

theorem sparing_sinkStep (step : TraceStep) :
    Sparing place (sinkStep step : StateM World SinkStep) := by
  cases step with
  | event e => exact .bind (.ask _) fun _ => .pure _
  | typeSeen text => exact .pure _

/-- Writing logs spares the places they avoid. -/
theorem sparing_writeLogs {logs : LogSettings} (h : logs.Avoids place) (traces : List TraceStep) :
    Sparing place (writeLogs logs traces : StateM World (Except FileFault Unit)) := by
  unfold writeLogs
  refine .bind (.mapM sparing_sinkStep traces) fun steps => ?_
  refine .bind (.write h.1 _) fun written => ?_
  cases written with
  | error fault => exact .pure _
  | ok _ => exact .write h.2 _

/-- An analysis spares what its logs avoid. -/
theorem sparing_analyzeLoaded {run : RunSettings} (h : ∀ logs, run.logs = some logs → logs.Avoids place)
    (units : List LoadedUnit) :
    Sparing place (analyzeLoaded run units :
      ExceptT CommandError (StateM World) (List UnitExports)).run := by
  unfold analyzeLoaded
  split
  · split
    · exact .pure _
    · exact .pure _
  · next logs hlogs =>
    refine .run_bind_lift (sparing_openLogs (h logs hlogs)) fun opened => ?_
    cases opened with
    | error fault => exact .pure _
    | ok _ =>
      refine .run_bind_lift (sparing_writeLogs (h logs hlogs) _) fun written => ?_
      split
      · exact .pure _
      · exact .pure _
      · exact .pure _

/-- Loading and analyzing spares what the logs avoid. -/
theorem sparing_analyzeInputs {run : RunSettings} (h : ∀ logs, run.logs = some logs → logs.Avoids place)
    (inputs : List String) :
    Sparing place (analyzeInputs run inputs : ExceptT CommandError (StateM World) Manifest).run := by
  unfold analyzeInputs
  refine .run_bind (.run_mapM sparing_loadUnit inputs) fun units => ?_
  refine .run_bind (sparing_analyzeLoaded h units) fun exports => ?_
  exact .run_bind_lift (.ask _) fun _ => .pure _

/-- Reporting spares what the run log avoids. -/
theorem sparing_reportDiagnostics {log : RunLog} (h : log.Avoids place) (manifest : Manifest) :
    Sparing place (reportDiagnostics log manifest : StateM World Nat) := by
  unfold reportDiagnostics
  refine .bind (.forIn (fun d => ?_) _) fun _ => .pure _
  exact .bind (RunLog.sparing_send h _ _) fun _ => .pure _

/-- Loading a manifest spares every place. -/
theorem sparing_loadIndexed :
    Sparing place (loadIndexed path : StateM World (Except ManifestError IndexedManifest)) := by
  unfold loadIndexed loadManifest
  refine .bind (.bind (.ask _) fun text => ?_) fun _ => .pure _
  cases text with
  | error fault => exact .pure _
  | ok text =>
    dsimp only
    split
    · exact .pure _
    · exact .pure _

/-- All stages before saving spare what the logs avoid. -/
theorem PipelineRun.spares {cmd : Command} {w : World} (run : PipelineRun cmd w)
    (h : ∀ logs, (cmd.runSettings run.settings).logs = some logs → logs.Avoids place) :
    w.files.Spares place run.analyzed.files := by
  refine (sparing_currentSettings.spares run.loadSettings_eq).trans ?_
  refine ((sparing_collectInputs cmd.inputs).spares run.collectInputs_eq).trans ?_
  refine ((Sparing.run_mapM sparing_loadUnit run.inputs).spares run.loadUnits_eq).trans ?_
  exact (sparing_analyzeLoaded h run.units).spares run.analyzeLoaded_eq

end Stages

/-! ## The start of a run -/

/-- Start the run log and name it there: what a run does before its command. -/
def beginRun (talk : Talk) : StateM World RunLog := do
  let log ← startRunLog talk
  if let some path := log.path then
    log.send .info ("Run log: " ++ path)
  return log

/-- A run log is at the path it was started at. -/
theorem RunLog.path_of_start {verbosity : Nat} {path : String} {log : RunLog} {w s : World}
    (h : (RunLog.start verbosity path : StateM World RunLog) w = (log, s)) : log.path = some path := by
  unfold RunLog.start at h
  have hfound : (Host.exists? path : StateM World Bool) w = (w.files.contains path, w) := rfl
  rw [World.bind_of_eq hfound] at h
  split at h
  · cases h
    rfl
  · cases h
    rfl

section Begin

variable {place : Place} {talk : Talk} {log : RunLog} {w s : World}

/-- The run log is the only thing that starting it touches. -/
theorem spares_startRunLog (h : (startRunLog talk : StateM World RunLog) w = (log, s))
    (hlog : log.Avoids place) : w.files.Spares place s.files := by
  have hstart : ∀ {path : String} {mid : World},
      (RunLog.start talk.verbosity path : StateM World RunLog) mid = (log, s) →
        mid.files.Spares place s.files := by
    intro path mid hstart
    exact (RunLog.sparing_start (hlog path (RunLog.path_of_start hstart)) _).spares hstart
  unfold startRunLog at h
  rcases hpath : (settingsPath : StateM World String) w with ⟨path, found⟩
  rw [World.bind_of_eq hpath] at h
  refine (sparing_settingsPath.spares hpath).trans ?_
  cases hparent : Path.parent? path with
  | some directory =>
    rw [hparent] at h
    exact hstart h
  | none =>
    rw [hparent] at h
    dsimp only at h
    rcases hhome : (homeSettingsDirectory? : StateM World (Option String)) found with ⟨home, searched⟩
    rw [World.bind_of_eq hhome] at h
    refine (sparing_homeSettingsDirectory?.spares hhome).trans ?_
    cases home with
    | none =>
      cases h
      exact .refl
    | some directory =>
      dsimp only at h
      rcases hmake : (Host.makeDirectories directory : StateM World _) searched with
        ⟨fault | ⟨⟩, made⟩
      all_goals rw [World.bind_of_eq hmake] at h
      all_goals refine ((Sparing.makeDirectories directory).spares hmake).trans ?_
      · cases h
        exact .refl
      · exact hstart h

/-- A run begins without touching what its log avoids. -/
theorem spares_beginRun (h : beginRun talk w = (log, s)) (hlog : log.Avoids place) :
    w.files.Spares place s.files := by
  unfold beginRun at h
  rcases hstart : (startRunLog talk : StateM World RunLog) w with ⟨started, mid⟩
  rw [World.bind_of_eq hstart] at h
  cases hpath : started.path with
  | none =>
    rw [hpath] at h
    cases h
    exact spares_startRunLog hstart hlog
  | some path =>
    rw [hpath] at h
    cases h
    exact (spares_startRunLog hstart hlog).trans ((RunLog.sparing_send hlog _ _).spares rfl)

end Begin

end ScriptExport
