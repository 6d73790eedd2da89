import ScriptExport.Command.Run
import ScriptExport.Proofs.Analysis.Tracing
import ScriptExport.Proofs.Manifest.Index

/-!
# What strict mode sees

A strict run fails if its manifest has a diagnostic. The units of the manifest are the results of the
loaded units, each analyzed by itself (`analyzeLoaded_eq_ok`), but a file has one place in a manifest:
of the results for one file, the last one stays. So a strict run that succeeds has seen no diagnostic
in the last unit of each file (`diagnostics_addAll_eq_nil_iff`), and nothing of the units before
it.
-/

namespace ScriptExport

namespace World

variable {ε α β : Type} {w s : World}

theorem bind_eq_ok {x : ExceptT ε (StateM World) α} {k : α → ExceptT ε (StateM World) β} {b : β}
    (h : (x >>= k).run w = (.ok b, s)) :
    ∃ a mid, x.run w = (.ok a, mid) ∧ (k a).run mid = (.ok b, s) := by
  rw [ExceptT.run_bind] at h
  cases hx : x.run w with
  | mk result mid =>
    rw [bind_of_eq hx] at h
    cases result with
    | error e => cases h
    | ok a => exact ⟨a, mid, rfl, h⟩

end World

/-! ## Units and their results -/

theorem filePath_of_analyze {o : Options} {u : TranslationUnit} {r : UnitExports}
    (h : analyze o u = .ok r) : r.filePath = u.filePath := by
  unfold analyze analyzeTraced at h
  cases hcheck : u.check o with
  | error e =>
    rw [hcheck] at h
    cases h
  | ok _ =>
    rw [hcheck] at h
    cases h
    rfl

variable {units : List LoadedUnit} {exports : List UnitExports}

/-- Without an error every unit is analyzed. -/
theorem analyzeUnits_eq_none {o : Options} {traced : Bool} {results : List AnalysisResult}
    (h : analyzeUnits o traced units = (results, none)) :
    units.map (fun p => analyze o p.2) = (results.map (·.exports)).map .ok := by
  induction units generalizing results with
  | nil =>
    cases h
    rfl
  | cons p units ih =>
    rw [analyzeUnits] at h
    split at h
    · cases h
    · next result hresult =>
      obtain ⟨rfl, hrest⟩ := Prod.mk.inj h
      rw [List.map_cons, List.map_cons, List.map_cons, ih (Prod.ext rfl hrest),
        ← map_exports_analyzeTraced o traced, hresult]
      rfl

/-- The exports of a run are the results of the units, each analyzed by itself. -/
theorem analyzeLoaded_eq_ok {run : RunSettings} {w s : World}
    (h : (analyzeLoaded run units : ExceptT CommandError (StateM World) _).run w = (.ok exports, s)) :
    units.map (fun p => analyze run.options p.2) = exports.map .ok := by
  unfold analyzeLoaded at h
  split at h
  · split at h
    · cases h
    · next results hresults =>
      cases h
      exact analyzeUnits_eq_none hresults
  · obtain ⟨opened, mid, -, h⟩ := World.bind_eq_ok h
    split at h
    · cases h
    · obtain ⟨written, after, -, h⟩ := World.bind_eq_ok h
      split at h
      · cases h
      · cases h
      · next hfault =>
        cases h
        exact analyzeUnits_eq_none (Prod.ext rfl hfault)

/-! ## The last unit of each file -/

/-- No later unit is of the same file. -/
def LastOfFile (units : List LoadedUnit) (p : LoadedUnit) : Prop :=
  ∃ before after, units = before ++ p :: after ∧ ∀ q ∈ after, q.2.filePath ≠ p.2.filePath

/-- The analysis of the unit by itself ends without a diagnostic. -/
def Clean (o : Options) (u : TranslationUnit) : Prop :=
  ∃ r, analyze o u = .ok r ∧ r.diagnostics = []

theorem Manifest.diagnostics_eq_nil_iff {m : Manifest} :
    m.diagnostics = [] ↔ ∀ u ∈ m.units, u.diagnostics = [] := by
  simp [Manifest.diagnostics, List.flatMap_eq_nil_iff]

/-- A manifest that is put together from units has the last one of each file. -/
theorem Manifest.mem_units_addAll_iff {time : String} {us : List UnitExports} {u : UnitExports} :
    u ∈ (Manifest.addAll { generatedAt := time } us).units ↔
      ∃ before after, us = before ++ u :: after ∧ ∀ v ∈ after, v.filePath ≠ u.filePath := by
  have hempty : ({ generatedAt := time } : Manifest).Distinct := List.nodup_nil
  rw [mem_units_iff (distinct_addAll hempty us), unit?_addAll]
  rw [show ({ generatedAt := time } : Manifest).unit? u.filePath = none from rfl, Option.or_none,
    List.find?_eq_some_iff_append]
  constructor
  · rintro ⟨-, after, before, hreverse, hafter⟩
    refine ⟨before.reverse, after.reverse, ?_, ?_⟩
    · rw [← List.reverse_reverse us, hreverse]
      simp
    · intro v hv
      simpa using hafter v (List.mem_reverse.mp hv)
  · rintro ⟨before, after, rfl, hafter⟩
    refine ⟨beq_self_eq_true _, after.reverse, before.reverse, by simp, ?_⟩
    intro v hv
    simpa using hafter v (List.mem_reverse.mp hv)

section Analyzed

variable {o : Options}

theorem map_filePath_eq (h : units.map (fun p => analyze o p.2) = exports.map .ok) :
    units.map (·.2.filePath) = exports.map (·.filePath) := by
  induction units generalizing exports with
  | nil =>
    rw [List.map_eq_nil_iff.mp h.symm]
    rfl
  | cons p units ih =>
    obtain ⟨r, exports, rfl, hr, hrest⟩ := List.map_eq_cons_iff.mp h.symm
    rw [List.map_cons, List.map_cons, ih hrest.symm, filePath_of_analyze hr.symm]

theorem forall_filePath_ne_iff (h : units.map (fun p => analyze o p.2) = exports.map .ok)
    (file : String) : (∀ q ∈ units, q.2.filePath ≠ file) ↔ ∀ r ∈ exports, r.filePath ≠ file := by
  have hmem : file ∈ units.map (·.2.filePath) ↔ file ∈ exports.map (·.filePath) := by
    rw [map_filePath_eq h]
  simpa [not_exists] using not_congr hmem

/-- The manifest of analyzed units has no diagnostic exactly if the last unit of each file is clean. -/
theorem diagnostics_addAll_eq_nil_iff (h : units.map (fun p => analyze o p.2) = exports.map .ok)
    (time : String) : (Manifest.addAll { generatedAt := time } exports).diagnostics = [] ↔
      ∀ p, LastOfFile units p → Clean o p.2 := by
  rw [Manifest.diagnostics_eq_nil_iff]
  constructor
  · rintro hclean p ⟨before, after, rfl, hafter⟩
    rw [List.map_append, List.map_cons] at h
    obtain ⟨before', rest, rfl, -, hrest⟩ := List.map_eq_append_iff.mp h.symm
    obtain ⟨r, after', rfl, hr, htail⟩ := List.map_eq_cons_iff.mp hrest
    refine ⟨r, hr.symm, hclean r (Manifest.mem_units_addAll_iff.mpr ⟨before', after', rfl, ?_⟩)⟩
    rw [filePath_of_analyze hr.symm]
    exact (forall_filePath_ne_iff htail.symm _).mp hafter
  · intro hclean r hr
    obtain ⟨before', after', rfl, hafter'⟩ := Manifest.mem_units_addAll_iff.mp hr
    rw [List.map_append, List.map_cons] at h
    obtain ⟨before, rest, rfl, -, hrest⟩ := List.map_eq_append_iff.mp h
    obtain ⟨p, after, rfl, hp, htail⟩ := List.map_eq_cons_iff.mp hrest
    have hlast : LastOfFile (before ++ p :: after) p := by
      refine ⟨before, after, rfl, ?_⟩
      rw [← filePath_of_analyze hp]
      exact (forall_filePath_ne_iff htail _).mpr hafter'
    obtain ⟨r', hr', hnil⟩ := hclean p hlast
    cases hp.symm.trans hr'
    exact hnil

end Analyzed

/-! ## Commands -/

/-- Whether diagnostics make the command fail. -/
def Command.isStrict : Command → Bool
  | .analyze args => args.strict
  | .check args => args.strict
  | .settings _ => false

/-- The paths that the command is given. -/
def Command.inputs : Command → List String
  | .analyze args => args.inputs
  | .check args => args.inputs
  | .settings _ => []

/-- How the command analyzes units. -/
def Command.runSettings (settings : Settings) : Command → RunSettings
  | .analyze args =>
    let run := RunSettings.ofSettings settings args.diagnostics
    { run with options.marker := args.marker.getD run.options.marker }
  | _ => RunSettings.ofSettings settings false

/-- The stages of a command up to its manifest, each from the world that the one before it leaves. -/
structure PipelineRun (cmd : Command) (w : World) where
  settings : Settings
  inputs : List String
  units : List LoadedUnit
  exports : List UnitExports
  configured : World
  collected : World
  loaded : World
  analyzed : World
  loadSettings_eq : (do orThrow .settings (loadSettings (← settingsPath (m := StateM World))) :
    ExceptT CommandError (StateM World) Settings).run w = (.ok settings, configured)
  collectInputs_eq : (collectInputs cmd.inputs : ExceptT CommandError (StateM World) _).run configured =
    (.ok inputs, collected)
  loadUnits_eq : (inputs.mapM loadUnit : ExceptT CommandError (StateM World) _).run collected =
    (.ok units, loaded)
  analyzeLoaded_eq : (analyzeLoaded (cmd.runSettings settings) units :
    ExceptT CommandError (StateM World) _).run loaded = (.ok exports, analyzed)

/-- A success has loaded and analyzed every input. -/
theorem analyzeInputs_eq_ok {run : RunSettings} {inputs : List String} {manifest : Manifest}
    {w s : World} (h : (analyzeInputs run inputs : ExceptT CommandError (StateM World) _).run w =
      (.ok manifest, s)) :
    ∃ units loaded exports time,
      (inputs.mapM loadUnit : ExceptT CommandError (StateM World) _).run w = (.ok units, loaded) ∧
      (analyzeLoaded run units : ExceptT CommandError (StateM World) _).run loaded =
        (.ok exports, s) ∧
      manifest = Manifest.addAll { generatedAt := time } exports := by
  unfold analyzeInputs at h
  obtain ⟨units, loaded, hunits, h⟩ := World.bind_eq_ok h
  obtain ⟨exports, analyzed, hexports, h⟩ := World.bind_eq_ok h
  obtain ⟨time, timed, htime, h⟩ := World.bind_eq_ok h
  cases htime
  cases h
  refine ⟨units, loaded, exports, s.time, hunits, hexports, ?_⟩
  rw [IndexedManifest.addAll_ofManifest]
  rfl

section Commands

variable {log : RunLog} {talk : Talk} {w s : World}

/-- A command that goes on after its report has been through all stages. -/
theorem exists_pipelineRun (cmd : Command)
    {rest : Manifest → Nat → ExceptT CommandError (StateM World) Unit}
    (h : (do
      let settings ← orThrow .settings (loadSettings (← settingsPath (m := StateM World)))
      let inputs ← collectInputs cmd.inputs
      let manifest ← analyzeInputs (cmd.runSettings settings) inputs
      let diagnostics ← reportDiagnostics (m := StateM World) log manifest
      rest manifest diagnostics : ExceptT CommandError (StateM World) Unit).run w = (.ok (), s)) :
    ∃ (p : PipelineRun cmd w) (time : String),
      let manifest := Manifest.addAll { generatedAt := time } p.exports
      let reported := ((reportDiagnostics log manifest : StateM World Nat) p.analyzed).2
      (rest manifest manifest.diagnostics.length).run reported = (.ok (), s) := by
  obtain ⟨path, found, hpath, h⟩ := World.bind_eq_ok h
  obtain ⟨settings, configured, hsettings, h⟩ := World.bind_eq_ok h
  obtain ⟨inputs, collected, hinputs, h⟩ := World.bind_eq_ok h
  obtain ⟨manifest, analyzed, hmanifest, h⟩ := World.bind_eq_ok h
  obtain ⟨n, reported, hn, h⟩ := World.bind_eq_ok h
  obtain ⟨units, loaded, exports, time, hunits, hexports, rfl⟩ := analyzeInputs_eq_ok hmanifest
  cases hpath
  cases hn
  exact ⟨⟨settings, inputs, units, exports, configured, collected, loaded, analyzed, hsettings, hinputs,
    hunits, hexports⟩, time, h⟩

theorem eq_zero_of_strict {strict : Bool} {n : Nat} {rest : ExceptT CommandError (StateM World) Unit}
    (hstrict : strict = true) (h : (if (strict && decide (0 < n)) = true then
      throw (CommandError.strict n) else rest).run w = (.ok (), s)) : n = 0 := by
  rw [hstrict, Bool.true_and] at h
  split at h
  · cases h
  · next hpos =>
    rw [decide_eq_true_eq] at hpos
    omega

/-- A strict command that succeeds has a manifest without diagnostics. -/
theorem diagnostics_eq_nil_of_strict {cmd : Command} (hstrict : cmd.isStrict = true)
    (h : (runCommand log talk cmd : ExceptT CommandError (StateM World) Unit).run w = (.ok (), s)) :
    ∃ (p : PipelineRun cmd w) (time : String),
      (Manifest.addAll { generatedAt := time } p.exports).diagnostics = [] := by
  cases cmd with
  | analyze args =>
    rw [runCommand, runAnalyze] at h
    obtain ⟨p, time, h⟩ := exists_pipelineRun (.analyze args) h
    refine ⟨p, time, List.eq_nil_of_length_eq_zero ?_⟩
    dsimp only at h
    split at h
    all_goals
      obtain ⟨merging, _, -, h⟩ := World.bind_eq_ok h
      split at h
      · obtain ⟨earlier, _, -, h⟩ := World.bind_eq_ok h
        obtain ⟨manifest, _, -, h⟩ := World.bind_eq_ok h
        exact eq_zero_of_strict hstrict h
      · obtain ⟨manifest, _, -, h⟩ := World.bind_eq_ok h
        exact eq_zero_of_strict hstrict h
  | check args =>
    rw [runCommand, runCheck] at h
    obtain ⟨p, time, h⟩ := exists_pipelineRun (.check args) h
    refine ⟨p, time, List.eq_nil_of_length_eq_zero ?_⟩
    dsimp only at h
    split at h
    · obtain ⟨_, _, -, h⟩ := World.bind_eq_ok h
      exact eq_zero_of_strict hstrict h
    · obtain ⟨_, _, -, h⟩ := World.bind_eq_ok h
      exact eq_zero_of_strict hstrict h
  | settings action => cases hstrict

end Commands

/-- **Strict mode sees the last unit of each file.** However units are analyzed, the report on their
manifest counts no diagnostic exactly if every loaded unit that no later unit of its file replaces is
clean by itself. So a strict command that succeeds has loaded units of which the last one of each file is
clean by itself. -/
theorem strict_mode_sees_last_units (log : RunLog) (talk : Talk) :
    (∀ (run : RunSettings) (units : List LoadedUnit) (exports : List UnitExports) (w s : World),
      (analyzeLoaded run units : ExceptT CommandError (StateM World) _).run w = (.ok exports, s) →
      ∀ (time : String) (now : World),
        ((reportDiagnostics log (Manifest.addAll { generatedAt := time } exports) :
          StateM World Nat) now).1 = 0 ↔ ∀ p, LastOfFile units p → Clean run.options p.2) ∧
    ∀ (cmd : Command) (w s : World), cmd.isStrict = true →
      (runCommand log talk cmd : ExceptT CommandError (StateM World) Unit).run w = (.ok (), s) →
      ∃ run : PipelineRun cmd w, ∀ p, LastOfFile run.units p →
        Clean (cmd.runSettings run.settings).options p.2 := by
  constructor
  · intro run units exports w s h time now
    rw [← diagnostics_addAll_eq_nil_iff (analyzeLoaded_eq_ok h) time, ← List.length_eq_zero_iff]
    rfl
  · intro cmd w s hstrict h
    obtain ⟨run, time, hnil⟩ := diagnostics_eq_nil_of_strict hstrict h
    refine ⟨run, ?_⟩
    exact (diagnostics_addAll_eq_nil_iff (analyzeLoaded_eq_ok run.analyzeLoaded_eq) time).mp hnil

/-- Two units of one file: the first is not clean, the second is, and nothing is counted. A strict check
of both dumps succeeds. -/
theorem strict_mode_sees_last_units_replaced :
    let bad : TranslationUnit :=
      { filePath := "same.h"
        decls := [.record { name := "Bad", annotations := ["lua_export_bogus"] } {} []] }
    let units : List LoadedUnit := [("a.json", bad), ("b.json", { filePath := "same.h", decls := [] })]
    let object (fields : String) : String := "\x7b" ++ fields ++ "\x7d"
    let dump (decls : String) : String :=
      object ("\"file_path\": \"same.h\", \"decls\": [" ++ decls ++ "]")
    let badText := object ("\"name\": \"Bad\", \"annotations\": [\"lua_export_bogus\"], \"kind\": "
      ++ object "\"decl\": \"record\", \"members\": []")
    let w : World :=
      { files.nodes := .ofList [(["a.json"], .file (dump badText)), (["b.json"], .file (dump ""))] }
    let cmd := Command.check { inputs := ["a.json", "b.json"], strict := true }
    ¬ Clean {} bad ∧
    (∃ exports, (analyzeLoaded { options := {} } units : ExceptT CommandError (StateM World) _).run {} =
        (.ok exports, {}) ∧
      ((reportDiagnostics {} (Manifest.addAll { generatedAt := "" } exports) :
        StateM World Nat) {}).1 = 0) ∧
    ∃ s, (runCommand {} {} cmd : ExceptT CommandError (StateM World) Unit).run w = (.ok (), s) ∧
      ∃ run : PipelineRun cmd w, ∀ p, LastOfFile run.units p →
        Clean (cmd.runSettings run.settings).options p.2 := by
  intro bad units object dump badText w cmd
  have hbad : bad.check {} = .ok () := TranslationUnit.check_default (by decide) rfl
  have hempty : TranslationUnit.check { filePath := "same.h", decls := [] } {} = .ok () :=
    TranslationUnit.check_default (by decide) rfl
  refine ⟨?_, ?_, ?_⟩
  · rintro ⟨r, hr, hnil⟩
    cases (analyze_of_check hbad).symm.trans hr
    have hsize : (Analysis.finalState {} bad).diagnostics.toList.length = 1 := by decide +kernel
    exact absurd (congrArg List.length hnil) (by rw [hsize]; decide)
  · have hanalyzed : (analyzeLoaded { options := {} } units :
        ExceptT CommandError (StateM World) _).run {} =
          (.ok (units.map fun p => ((Analysis.run {} false p.2).result p.2.filePath).exports), {}) := by
      simp only [analyzeLoaded, analyzeUnits, analyzeTraced, units, hbad, hempty, Except.map]
      rfl
    refine ⟨_, hanalyzed, ?_⟩
    rw [(strict_mode_sees_last_units {} {}).1 _ _ _ _ _ hanalyzed]
    rintro p ⟨before, after, hsplit, hafter⟩
    match before, hsplit with
    | [], hsplit =>
      obtain ⟨rfl, rfl⟩ := List.cons.inj hsplit
      exact (hafter ("b.json", _) List.mem_cons_self rfl).elim
    | [_], hsplit =>
      obtain ⟨rfl, -⟩ := List.cons.inj (List.cons.inj hsplit).2
      exact ⟨_, analyze_of_check hempty, rfl⟩
    | _ :: _ :: before, hsplit => cases before <;> cases (List.cons.inj (List.cons.inj hsplit).2).2
  · have hok : ((runCommand {} {} cmd : ExceptT CommandError (StateM World) Unit).run w).1.isOk =
        true := by decide +kernel
    cases hrun : (runCommand {} {} cmd : ExceptT CommandError (StateM World) Unit).run w with
    | mk result s =>
      rw [hrun] at hok
      cases result with
      | error e => cases hok
      | ok _ => exact ⟨s, rfl, (strict_mode_sees_last_units {} {}).2 cmd w s rfl hrun⟩

end ScriptExport
