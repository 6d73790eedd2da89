import ScriptExport.Proofs.Command.Stages

/-!
# All or nothing

An `analyze` command has one write to the place of its manifest, and everything that can fail comes
before it: settings, inputs, units, logs, an earlier manifest and the strict count each spare that place
unless a log is there. Saving itself fails only while the draft is made or where the path can hold no
file. So a run that fails keeps the file of the manifest, and a run that succeeds leaves there what it
merged (`analyze_all_or_nothing`).
-/

namespace ScriptExport

open World (Sparing)

/-! ## Failing runs -/

/-- Moving the draft fails only where the path can hold no file, so that nothing was or is read there. -/
theorem keepsFile_of_rename_draft_error {t u : FileTree} {path text : String} {fault : FileFault}
    (hwrite : t.write (draftPath path) text = .ok u)
    (hrename : u.rename (draftPath path) path = .error fault) : t.KeepsFile path u := by
  have hpath : ∀ place, t.locateFile path ≠ .ok place := by
    intro place hplace
    obtain ⟨files, hfiles⟩ := (rename_draft_ok_iff hwrite).mpr ⟨place, hplace⟩
    cases hrename.symm.trans hfiles
  obtain ⟨draft, hdraft, rfl⟩ := FileTree.write_ok_iff.mp hwrite
  have hsame := FileTree.SameDirectories.put (FileTree.locateFile_ok_iff.mp hdraft).2.2 text
  constructor
  · intro found hread
    exact absurd (FileTree.locateFile_of_read hread) (hpath _)
  · intro found hread
    exact absurd (hsame.symm.locateFile (FileTree.locateFile_of_read hread)) (hpath _)

/-- A save that fails keeps what was at the path. -/
theorem keepsFile_of_saveManifest_error {m : Manifest} {path : String} {w s : World} {e : ManifestError}
    (h : (saveManifest m path : StateM World _) w = (.error e, s)) :
    w.files.KeepsFile path s.files := by
  rcases hparent : (makeParent path : StateM World _) w with ⟨fault | ⟨⟩, ready⟩
  all_goals have hspares : w.files.Spares (.ofPath path) ready.files :=
    (sparing_makeParent path).spares hparent
  · rw [saveManifest_of_makeParent_error hparent] at h
    cases h
    exact hspares.keepsFile
  · cases hwrite : ready.files.write (draftPath path) (m.render (.ofPath path)) with
    | error fault =>
      rw [saveManifest_of_write_error hparent hwrite] at h
      cases h
      exact hspares.keepsFile
    | ok drafted =>
      cases hrename : drafted.rename (draftPath path) path with
      | ok files =>
        rw [saveManifest_of_write_ok hparent hwrite (World.change_ok hrename)] at h
        cases h
      | error fault =>
        rw [saveManifest_of_write_ok hparent hwrite (World.change_error hrename)] at h
        cases h
        exact (keepsFile_of_rename_draft_error hwrite hrename).after hspares

/-- Every run of the action that fails keeps the file of the path. -/
def KeepsOnFailure {ε α : Type} (path : String) (x : ExceptT ε (StateM World) α) : Prop :=
  ∀ w e s, x.run w = (.error e, s) → w.files.KeepsFile path s.files

namespace KeepsOnFailure

variable {ε α β : Type} {path : String} {x : ExceptT ε (StateM World) α}
  {k : α → ExceptT ε (StateM World) β}

theorem of_sparing (h : Sparing (.ofPath path) x.run) : KeepsOnFailure path x := by
  intro w e s hrun
  exact (h.spares hrun).keepsFile

/-- What spares the file may come first. -/
theorem bind (hx : Sparing (.ofPath path) x.run) (hk : ∀ a, KeepsOnFailure path (k a)) :
    KeepsOnFailure path (x >>= k) := by
  intro w e s hrun
  obtain hfail | ⟨a, mid, hok, hrest⟩ := World.bind_eq_error hrun
  · exact of_sparing hx w e s hfail
  · exact (hk a mid e s hrest).after (hx.spares hok)

/-- What cannot fail may follow. -/
theorem bind_of_ok (hx : KeepsOnFailure path x) (hk : ∀ a w, ∃ b s, (k a).run w = (.ok b, s)) :
    KeepsOnFailure path (x >>= k) := by
  intro w e s hrun
  obtain hfail | ⟨a, mid, -, hrest⟩ := World.bind_eq_error hrun
  · exact hx w e s hfail
  · obtain ⟨b, after, hok⟩ := hk a mid
    cases hrest.symm.trans hok

end KeepsOnFailure

theorem keepsOnFailure_saveManifest (manifest : Manifest) (path : String) :
    KeepsOnFailure path (orThrow .writeManifest (saveManifest manifest path) :
      ExceptT CommandError (StateM World) Unit) := by
  intro w e s h
  obtain ⟨fault, hsave, -⟩ := orThrow_eq_error h
  exact keepsFile_of_saveManifest_error hsave

section Analyze

variable {log : RunLog} {talk : Talk} {args : AnalyzeArgs} {w s : World}

/-- What a run saves: its own manifest, merged into the one at the path if it is asked to and there is
one. -/
def mergeEarlier (args : AnalyzeArgs) (fresh : Manifest) :
    ExceptT CommandError (StateM World) Manifest := do
  let merging ← if args.merge then Host.exists? (m := StateM World) args.out else pure false
  if merging then do
    let earlier ← orThrow (.readManifest args.out) (loadIndexed args.out)
    pure (earlier.merge (.ofManifest fresh)).manifest
  else pure fresh

/-- Save the manifest unless strict mode refuses, and say so. -/
def saveUnlessRefused (log : RunLog) (talk : Talk) (args : AnalyzeArgs) (fresh : Manifest)
    (diagnostics : Nat) (manifest : Manifest) : ExceptT CommandError (StateM World) Unit := do
  if args.strict && 0 < diagnostics then throw (.strict diagnostics)
  else do
    orThrow .writeManifest (saveManifest manifest args.out)
    if !talk.quiet then
      log.send (m := StateM World) .success
        (toString fresh.recordCount ++ " records from " ++ toString fresh.units.length
          ++ " units written to " ++ args.out)

/-- The analysis of inputs, stage by stage. -/
theorem runAnalyze_eq (log : RunLog) (talk : Talk) (args : AnalyzeArgs) :
    (runAnalyze log talk args : ExceptT CommandError (StateM World) Unit) = (do
      let settings ← orThrow .settings (loadSettings (← settingsPath (m := StateM World)))
      let inputs ← collectInputs (Command.analyze args).inputs
      let fresh ← analyzeInputs ((Command.analyze args).runSettings settings) inputs
      let diagnostics ← reportDiagnostics (m := StateM World) log fresh
      let manifest ← mergeEarlier args fresh
      saveUnlessRefused log talk args fresh diagnostics manifest) := by
  unfold runAnalyze mergeEarlier
  refine bind_congr fun path => bind_congr fun settings => bind_congr fun inputs =>
    bind_congr fun fresh => bind_congr fun diagnostics => ?_
  cases args.merge with
  | false => rfl
  | true =>
    simp only [if_true, bind_assoc]
    refine bind_congr fun merging => ?_
    cases merging with
    | false => rfl
    | true =>
      simp only [if_true, bind_assoc]
      rfl

theorem sparing_mergeEarlier {place : Place} (args : AnalyzeArgs) (fresh : Manifest) :
    Sparing place (mergeEarlier args fresh).run := by
  unfold mergeEarlier
  split
  · refine .run_bind_lift (.ask _) fun merging => ?_
    cases merging with
    | false => exact .pure _
    | true => exact .run_bind (sparing_orThrow (sparing_loadIndexed _)) fun _ => .pure _
  · exact .pure _

theorem keepsOnFailure_saveUnlessRefused (log : RunLog) (talk : Talk) (args : AnalyzeArgs)
    (fresh : Manifest) (diagnostics : Nat) (manifest : Manifest) :
    KeepsOnFailure args.out (saveUnlessRefused log talk args fresh diagnostics manifest) := by
  unfold saveUnlessRefused
  split
  · exact .of_sparing (.pure _)
  · refine .bind_of_ok (keepsOnFailure_saveManifest manifest args.out) fun _ w => ?_
    split
    · exact ⟨_, _, rfl⟩
    · exact ⟨_, _, rfl⟩

/-- What the units of a run are merged into. The file at the path counts if the run merges; nothing else
does. -/
structure MergeBase (args : AnalyzeArgs) (t : FileTree) (time : String) (base : Manifest) : Prop where
  parse_of_read : args.merge = true → ∀ text, t.read args.out = .ok text →
    Manifest.parse? (.ofPath args.out) text = some base
  origin : base = { generatedAt := time } ∨ args.merge = true ∧
    ∃ text, t.node? (.ofPath args.out) = some (.file text) ∧
      Manifest.parse? (.ofPath args.out) text = some base

theorem MergeBase.after {t u : FileTree} {time : String} {base : Manifest}
    (h : MergeBase args u time base) (hspares : t.Spares (.ofPath args.out) u) :
    MergeBase args t time base where
  parse_of_read hmerge text hread := h.parse_of_read hmerge text (hspares.read hread)
  origin := by
    obtain hempty | ⟨hmerge, text, hnode, hparse⟩ := h.origin
    · exact .inl hempty
    · exact .inr ⟨hmerge, text, (hspares.file text).mpr hnode, hparse⟩

/-- The fresh manifest is merged into the earlier one. -/
theorem mergeEarlier_eq_ok {time : String} {exports : List UnitExports} {manifest : Manifest}
    (h : (mergeEarlier args (Manifest.addAll { generatedAt := time } exports)).run w =
      (.ok manifest, s)) :
    ∃ base, MergeBase args w.files time base ∧
      manifest = base.merge (Manifest.addAll { generatedAt := time } exports) ∧ s = w := by
  have hnothing : (args.merge = true → ∀ text, w.files.read args.out ≠ .ok text) →
      MergeBase args w.files time { generatedAt := time } := fun hnone =>
    ⟨fun hmerge text hread => absurd hread (hnone hmerge text), .inl rfl⟩
  have hfresh := (Manifest.empty_merge_addAll time exports).symm
  unfold mergeEarlier at h
  split at h
  · next hmerge =>
    obtain ⟨merging, _, hmerging, h⟩ := World.bind_eq_ok h
    cases hmerging
    dsimp only at h
    split at h
    · obtain ⟨earlier, _, hearlier, hmanifest⟩ := World.bind_eq_ok h
      obtain ⟨base, hbase, rfl⟩ := loadIndexed_eq_ok (orThrow_eq_ok hearlier)
      obtain ⟨text, hread, hparse, rfl⟩ := loadManifest_eq_ok hbase
      cases hmanifest
      refine ⟨base, ⟨fun _ text' hread' => ?_, .inr ⟨hmerge, text, ?_, hparse⟩⟩, ?_, rfl⟩
      · cases hread.symm.trans hread'
        exact hparse
      · exact FileTree.Spares.refl.node?_of_read hread
      · exact congrArg (·.manifest) (IndexedManifest.addAll_ofManifest base _)
    · next hmissing =>
      cases h
      exact ⟨_, hnothing fun _ text hread => hmissing (FileTree.contains_of_read hread), hfresh, rfl⟩
  · next hmerge =>
    cases h
    exact ⟨_, hnothing fun hmerges => absurd hmerges hmerge, hfresh, rfl⟩

/-- What is saved was not refused and can be loaded. -/
theorem saveUnlessRefused_eq_ok {fresh manifest : Manifest} {diagnostics : Nat}
    (hlog : log.Avoids (.ofPath args.out))
    (h : (saveUnlessRefused log talk args fresh diagnostics manifest).run w = (.ok (), s)) :
    (args.strict = true → diagnostics = 0) ∧
      (loadManifest args.out : StateM World _) s = (.ok manifest, s) := by
  unfold saveUnlessRefused at h
  refine ⟨fun hstrict => eq_zero_of_strict hstrict h, ?_⟩
  split at h
  · cases h
  obtain ⟨_, saved, hsave, h⟩ := World.bind_eq_ok h
  have hread := read_of_saveManifest (orThrow_eq_ok hsave)
  refine loadManifest_of_read ?_
  split at h
  · cases h
    exact ((RunLog.sparing_send hlog _ _).spares rfl).read hread
  · cases h
    exact hread

/-- The settings of a run send its logs elsewhere. -/
def TracesElsewhere (args : AnalyzeArgs) (w : World) : Prop :=
  ∀ settings configured logs,
    (do orThrow .settings (loadSettings (← settingsPath (m := StateM World))) :
      ExceptT CommandError (StateM World) Settings).run w = (.ok settings, configured) →
    ((Command.analyze args).runSettings settings).logs = some logs → logs.Avoids (.ofPath args.out)

section Elsewhere

variable (hlog : log.Avoids (.ofPath args.out)) (htraces : TracesElsewhere args w)
include hlog htraces

/-- A failed run leaves the manifest file alone. -/
theorem keepsFile_of_runAnalyze_error {e : CommandError}
    (h : (runAnalyze log talk args : ExceptT CommandError (StateM World) Unit).run w = (.error e, s)) :
    w.files.KeepsFile args.out s.files := by
  rw [runAnalyze_eq, ← bind_assoc] at h
  obtain hfail | ⟨settings, configured, hsettings, h⟩ := World.bind_eq_error h
  · exact (sparing_currentSettings.spares hfail).keepsFile
  · refine FileTree.KeepsFile.after ?_ (sparing_currentSettings.spares hsettings)
    refine KeepsOnFailure.bind (sparing_collectInputs _) (fun inputs => ?_) _ _ _ h
    refine .bind (sparing_analyzeInputs (htraces settings configured · hsettings) inputs) fun fresh => ?_
    refine .bind (sparing_reportDiagnostics hlog fresh) fun diagnostics => ?_
    refine .bind (sparing_mergeEarlier args fresh) fun manifest => ?_
    exact keepsOnFailure_saveUnlessRefused log talk args fresh diagnostics manifest

/-- A run that succeeds has been through its stages, without diagnostics if it is strict, and its manifest
is found at the path, merged into the one that was there if it merges. -/
theorem loadManifest_of_runAnalyze_ok
    (h : (runAnalyze log talk args : ExceptT CommandError (StateM World) Unit).run w = (.ok (), s)) :
    ∃ (run : PipelineRun (.analyze args) w) (time : String) (base : Manifest),
      let fresh := Manifest.addAll { generatedAt := time } run.exports
      MergeBase args w.files time base ∧ (args.strict = true → fresh.diagnostics = []) ∧
        (loadManifest args.out : StateM World _) s = (.ok (base.merge fresh), s) := by
  rw [runAnalyze_eq] at h
  obtain ⟨run, time, h⟩ := exists_pipelineRun (.analyze args) h
  let fresh := Manifest.addAll { generatedAt := time } run.exports
  have hreported := (run.spares (htraces run.settings run.configured · run.loadSettings_eq)).trans
    ((sparing_reportDiagnostics hlog fresh).spares rfl)
  obtain ⟨manifest, merged, hmanifest, h⟩ := World.bind_eq_ok h
  obtain ⟨base, hbase, rfl, rfl⟩ := mergeEarlier_eq_ok hmanifest
  obtain ⟨hstrict, hload⟩ := saveUnlessRefused_eq_ok hlog h
  exact ⟨run, time, base, hbase.after hreported,
    fun hs => List.eq_nil_of_length_eq_zero (hstrict hs), hload⟩

end Elsewhere

end Analyze

/-! ## Runs of the program -/

theorem runProgram_eq {arguments : List String} {talk : Talk} {command : Command}
    (h : readArguments arguments = .ok (talk, command)) :
    (runProgram arguments : StateM World UInt32) = (do
      let log ← beginRun talk
      match ← (runCommand log talk command).run with
      | .ok _ => return 0
      | .error e =>
        log.send .error e.message
        return 1) := by
  unfold runProgram beginRun
  rw [h]
  simp only [bind_assoc]
  refine bind_congr fun log => ?_
  cases log.path with
  | none => rfl
  | some path => rfl

/-- The file of the manifest is none of the logs that a run writes. -/
structure LogsElsewhere (talk : Talk) (args : AnalyzeArgs) (w : World) : Prop where
  runLog : (beginRun talk w).1.Avoids (.ofPath args.out)
  traces : TracesElsewhere args (beginRun talk w).2

/-- **All or nothing.** Let an `analyze` run have its logs elsewhere. If it fails, at whatever stage, the
file of the manifest is the one that was there, or there is still none. If it succeeds, it has collected,
loaded and analyzed its inputs, without diagnostics if it is strict, and the path loads as their exports in
input order, merged into the manifest that was there if the run merges and into nothing otherwise. -/
theorem analyze_all_or_nothing {arguments : List String} {talk : Talk} {args : AnalyzeArgs}
    {w s : World} {status : UInt32} (harguments : readArguments arguments = .ok (talk, .analyze args))
    (hlogs : LogsElsewhere talk args w)
    (h : (runProgram arguments : StateM World UInt32) w = (status, s)) :
    (status ≠ 0 → w.files.KeepsFile args.out s.files) ∧
    (status = 0 → ∃ (run : PipelineRun (.analyze args) (beginRun talk w).2) (time : String)
        (base : Manifest),
      let options := ((Command.analyze args).runSettings run.settings).options
      let fresh := Manifest.addAll { generatedAt := time } run.exports
      run.units.map (fun p => analyze options p.2) = run.exports.map .ok ∧
        (args.strict = true → fresh.diagnostics = []) ∧ MergeBase args w.files time base ∧
        (loadManifest args.out : StateM World _) s = (.ok (base.merge fresh), s)) := by
  rcases hbegin : beginRun talk w with ⟨log, begun⟩
  obtain ⟨hlog, htraces⟩ := hlogs
  rw [hbegin] at hlog htraces
  have hspares := spares_beginRun hbegin hlog
  rw [runProgram_eq harguments, World.bind_of_eq hbegin] at h
  rcases hrun : (runAnalyze log talk args : ExceptT CommandError (StateM World) Unit).run begun with
    ⟨e | ⟨⟩, ended⟩
  all_goals rw [World.bind_of_eq (x := (runCommand log talk (.analyze args)).run) hrun] at h
  · cases h
    refine ⟨fun _ => ?_, fun hzero => absurd hzero (by decide)⟩
    have hended := (keepsFile_of_runAnalyze_error hlog htraces hrun).after hspares
    exact hended.before ((RunLog.sparing_send hlog _ _).spares rfl)
      (RunLog.sameDirectories_send log _ _ ended)
  · cases h
    refine ⟨fun hnonzero => absurd rfl hnonzero, fun _ => ?_⟩
    obtain ⟨run, time, base, hbase, hstrict, hload⟩ := loadManifest_of_runAnalyze_ok hlog htraces hrun
    exact ⟨run, time, base, analyzeLoaded_eq_ok run.analyzeLoaded_eq, hstrict, hbase.after hspares,
      hload⟩

theorem LogsElsewhere.of_eq {talk : Talk} {args : AnalyzeArgs} {w : World} (path : String)
    (logs : Option LogSettings) (hlog : (beginRun talk w).1.path = some path)
    (hpath : Place.ofPath path ≠ .ofPath args.out)
    (hsettings : ((do orThrow .settings (loadSettings (← settingsPath (m := StateM World))) :
      ExceptT CommandError (StateM World) Settings).run (beginRun talk w).2).1.toOption.map
        (fun settings => ((Command.analyze args).runSettings settings).logs) = some logs)
    (hlogs : ∀ l ∈ logs, l.Avoids (.ofPath args.out)) : LogsElsewhere talk args w where
  runLog path' hpath' := by
    cases hlog.symm.trans hpath'
    exact hpath
  traces settings configured l hload hl := by
    rw [hload] at hsettings
    exact hlogs l (Option.mem_def.mpr ((Option.some.inj hsettings).symm.trans hl))

/-- A dump with a diagnostic, one without and a manifest: a strict run on the first, with logs, fails and
keeps the manifest, and a run on the second that merges adds to it. -/
theorem analyze_all_or_nothing_strict_and_merged :
    let object (fields : String) : String := "\x7b" ++ fields ++ "\x7d"
    let dump (file decls : String) : String :=
      object ("\"file_path\":\"" ++ file ++ "\",\"decls\":[" ++ decls ++ "]")
    let faulty := object ("\"name\":\"A\",\"annotations\":[\"lua_export_x\"],\"kind\":"
      ++ object "\"decl\":\"record\",\"members\":[]")
    let earlier : Manifest :=
      { generatedAt := "", units := [{ filePath := "c.h", records := [], diagnostics := [] }] }
    let w : World :=
      { files.nodes := .ofList [(["a.json"], .file (dump "a.h" faulty)),
          (["b.json"], .file (dump "b.h" "")), (["m.json"], .file (earlier.render .json))] }
    let strict : AnalyzeArgs :=
      { inputs := ["a.json"], out := "m.json", strict := true, diagnostics := true }
    let merging : AnalyzeArgs := { inputs := ["b.json"], out := "m.json", merge := true }
    (LogsElsewhere {} strict w ∧ ∃ s,
      (runProgram ["analyze", "a.json", "--out", "m.json", "--strict", "--diagnostics"] :
        StateM World UInt32) w = (1, s) ∧
      s.files.read "m.json" = .ok (earlier.render .json)) ∧
    LogsElsewhere {} merging w ∧ ∃ s time exports,
      (runProgram ["analyze", "b.json", "--out", "m.json", "--merge"] : StateM World UInt32) w =
        (0, s) ∧
      (loadManifest "m.json" : StateM World _) s =
        (.ok (earlier.merge (Manifest.addAll { generatedAt := time } exports)), s) := by
  intro object dump faulty earlier w strict merging
  have hread : w.files.read "m.json" = .ok (earlier.render .json) :=
    FileTree.read_ok_iff.mpr ⟨["m.json"], by decide +kernel, rfl⟩
  have hparse : Manifest.parse? (.ofPath "m.json") (earlier.render .json) = some earlier := by
    rw [show ManifestFormat.ofPath "m.json" = .json by decide +kernel]
    exact earlier.parse?_render .json
  have hrunLog : Place.ofPath "./luaexport/luaexport.log" ≠ .ofPath "m.json" := by decide +kernel
  have htraces : ({} : LogSettings).Avoids (.ofPath "m.json") := ⟨by decide +kernel, by decide +kernel⟩
  have hstrict : LogsElsewhere {} strict w :=
    .of_eq "./luaexport/luaexport.log" (some {}) (by decide +kernel) hrunLog (by decide +kernel)
      fun _ h => Option.some.inj h ▸ htraces
  have hmerging : LogsElsewhere {} merging w :=
    .of_eq "./luaexport/luaexport.log" none (by decide +kernel) hrunLog (by decide +kernel)
      fun _ h => nomatch h
  refine ⟨⟨hstrict, ?_⟩, hmerging, ?_⟩
  · have harguments : readArguments
        ["analyze", "a.json", "--out", "m.json", "--strict", "--diagnostics"] =
          .ok ({}, .analyze strict) := by decide +kernel
    have hstatus : ((runProgram ["analyze", "a.json", "--out", "m.json", "--strict", "--diagnostics"] :
        StateM World UInt32) w).1 = 1 := by decide +kernel
    rcases hrun : (runProgram _ : StateM World UInt32) w with ⟨status, s⟩
    rw [hrun] at hstatus
    obtain rfl : status = 1 := hstatus
    have hkeeps := (analyze_all_or_nothing harguments hstrict hrun).1 (by decide)
    exact ⟨s, rfl, hkeeps.read_of_read _ hread⟩
  · have harguments : readArguments ["analyze", "b.json", "--out", "m.json", "--merge"] =
        .ok ({}, .analyze merging) := by decide +kernel
    have hstatus : ((runProgram ["analyze", "b.json", "--out", "m.json", "--merge"] :
        StateM World UInt32) w).1 = 0 := by decide +kernel
    rcases hrun : (runProgram _ : StateM World UInt32) w with ⟨status, s⟩
    rw [hrun] at hstatus
    obtain rfl : status = 0 := hstatus
    obtain ⟨run, time, base, -, -, hbase, hload⟩ :=
      (analyze_all_or_nothing harguments hmerging hrun).2 rfl
    obtain rfl : base = earlier := Option.some.inj ((hbase.parse_of_read rfl _ hread).symm.trans hparse)
    exact ⟨s, time, run.exports, rfl, hload⟩

end ScriptExport
