import ScriptExport.Proofs.Command.Store

/-!
# Saved settings

The document form of settings leaves out log paths that are not set, and a field that is missing has its
default, so the same settings are read in whatever order the fields come (`Settings.ofValue?_arranged`).
TOML can hold that form, whatever the texts in it are. Saving succeeds exactly if the directory of
the path can be made and the path can then hold a file, and what is loaded afterwards are the settings
that were saved (`loadSettings_saveSettings`).
-/

namespace ScriptExport

/-! ## Decoding -/

/-- All fields of log settings, with or without a value. -/
def LogSettings.slots (s : LogSettings) : List (String × Option Value) :=
  [("enabled", some (.bool s.enabled)), ("event_log", s.eventLog.map .text),
    ("stats_log", s.statsLog.map .text)]

theorem LogSettings.toValue_eq (s : LogSettings) : s.toValue = .table (Value.present s.slots) := by
  simp only [LogSettings.slots, Value.present_cons, Value.present_nil, List.append_nil]
  rfl

theorem LogSettings.nodup_slots (s : LogSettings) : (s.slots.map Prod.fst).Nodup := by
  simp [LogSettings.slots]

section Decoding

variable {f : Value → Value} (hf : Value.Arranges f)
include hf

/-- Log settings are read from their value. -/
theorem LogSettings.ofValue?_arranged (s : LogSettings) :
    LogSettings.ofValue? (f s.toValue) = some s := by
  obtain ⟨x, hx, -, hget⟩ := hf.holds ["enabled", "event_log", "stats_log"] s.nodup_slots
    (by simp [LogSettings.slots])
  simp only [LogSettings.slots, List.forall_mem_cons] at hget
  obtain ⟨henabled, hevents, hstatistics, -⟩ := hget
  unfold LogSettings.ofValue?
  rw [s.toValue_eq, bind_of_eq hx,
    bind_of_eq (Fields.withDefault_of_get? henabled (bool?_arranged hf _)),
    bind_of_eq (Fields.withDefault_map hevents (nullable_text?_arranged hf)),
    bind_of_eq (Fields.withDefault_map hstatistics (nullable_text?_arranged hf))]
  rfl

/-- Settings are read from their value. -/
theorem Settings.ofValue?_arranged (s : Settings) : Settings.ofValue? (f s.toValue) = some s := by
  obtain ⟨x, hx, hgives⟩ := hf.fields?
    ["annotation_prefix", "allow_specializations", "ignored_path_prefixes", "vector_templates",
      "map_templates", "diagnostics"] (v := s.toValue) rfl (by simp)
  have hmarker : x.withDefault "annotation_prefix" "lua_export_" Value.text? = some s.marker :=
    hgives.withDefault _ (f (.text s.marker)) (by simp) (by simp) (text?_arranged hf _)
  have hspecializations : x.withDefault "allow_specializations" false Value.bool? =
      some s.allowSpecializations :=
    hgives.withDefault _ (f (.bool s.allowSpecializations)) (by simp) (by simp) (bool?_arranged hf _)
  have hignored : x.withDefault "ignored_path_prefixes" [] Value.texts? = some s.ignoredPaths :=
    hgives.withDefault _ (f (.texts s.ignoredPaths)) (by simp) (by simp) (hf.texts? _)
  have hvectors (default : List String) : x.withDefault "vector_templates" default Value.texts? =
      some s.containers.vectorTemplates :=
    hgives.withDefault _ (f (.texts s.containers.vectorTemplates)) (by simp) (by simp) (hf.texts? _)
  have hmaps (default : List String) : x.withDefault "map_templates" default Value.texts? =
      some s.containers.mapTemplates :=
    hgives.withDefault _ (f (.texts s.containers.mapTemplates)) (by simp) (by simp) (hf.texts? _)
  have hlogs : x.withDefault "diagnostics" {} LogSettings.ofValue? = some s.diagnostics :=
    hgives.withDefault _ (f s.diagnostics.toValue) (by simp) (by simp)
      (s.diagnostics.ofValue?_arranged hf)
  unfold Settings.ofValue?
  rw [bind_of_eq hx]
  dsimp only
  rw [bind_of_eq hmarker, bind_of_eq hspecializations, bind_of_eq hignored, bind_of_eq (hvectors _),
    bind_of_eq (hmaps _), bind_of_eq hlogs]
  rfl

end Decoding

/-! ## The text of settings -/

theorem LogSettings.isWritable_toValue (s : LogSettings) : Toml.isWritable s.toValue = true := by
  rw [s.toValue_eq]
  refine isWritable_present s.nodup_slots ?_ ?_ <;>
    simp only [LogSettings.slots, List.forall_mem_cons]
  · exact ⟨by decide, by decide, by decide, by simp⟩
  · exact ⟨.some rfl, .map (fun _ => rfl) _, .map (fun _ => rfl) _, by simp⟩

theorem Settings.isWritable_toValue (s : Settings) : Toml.isWritable s.toValue = true := by
  show Toml.isWritable (.table (Value.present [("annotation_prefix", some (.text s.marker)),
    ("allow_specializations", some (.bool s.allowSpecializations)),
    ("ignored_path_prefixes", some (.texts s.ignoredPaths)),
    ("vector_templates", some (.texts s.containers.vectorTemplates)),
    ("map_templates", some (.texts s.containers.mapTemplates)),
    ("diagnostics", some s.diagnostics.toValue)])) = true
  refine isWritable_present (by simp) ?_ ?_ <;> simp only [List.forall_mem_cons]
  · exact ⟨by decide, by decide, by decide, by decide, by decide, by decide, by simp⟩
  · exact ⟨.some rfl, .some rfl, .some (isWritable_texts _), .some (isWritable_texts _),
      .some (isWritable_texts _), .some s.diagnostics.isWritable_toValue, by simp⟩

/-- Settings are the ones that their text writes. -/
theorem Settings.parse?_render (s : Settings) : Settings.parse? s.render = some s := by
  have hparse : Toml.parse? s.render = some (Toml.arrange s.toValue) :=
    Toml.parse?_print s.isWritable_toValue
  unfold Settings.parse?
  rw [hparse]
  exact s.ofValue?_arranged Toml.arranges_arrange

/-! ## Settings files -/

/-- The directory of the path can be made, and the path can then hold a file. -/
def CanHoldSettings (path : String) (w : World) : Prop :=
  ∃ ready, (makeParent path : StateM World _) w = (.ok (), ready) ∧
    ∃ place, ready.files.locateFile path = .ok place

section Saving

variable {s : Settings} {path : String} {w after : World}

/-- Settings are saved by making the directory and writing the file. -/
theorem saveSettings_ok_iff : (saveSettings s path : StateM World _) w = (.ok (), after) ↔
    ∃ ready files, (makeParent path : StateM World _) w = (.ok (), ready) ∧
      ready.files.write path s.render = .ok files ∧ after = { ready with files } := by
  constructor
  · intro h
    unfold saveSettings at h
    rcases hparent : (makeParent path : StateM World _) w with ⟨fault | ⟨⟩, ready⟩
    · rw [World.bind_of_eq hparent] at h
      cases h
    · rw [World.bind_of_eq hparent] at h
      dsimp only at h
      cases hwrite : ready.files.write path s.render with
      | error fault =>
        have hhost : (Host.write path s.render : StateM World _) ready = (.error fault, ready) :=
          World.change_error hwrite
        rw [World.bind_of_eq hhost] at h
        cases h
      | ok files =>
        have hhost : (Host.write path s.render : StateM World _) ready =
            (.ok (), { ready with files }) := World.change_ok hwrite
        rw [World.bind_of_eq hhost] at h
        cases h
        exact ⟨ready, files, rfl, hwrite, rfl⟩
  · rintro ⟨ready, files, hparent, hwrite, rfl⟩
    have hhost : (Host.write path s.render : StateM World _) ready =
        (.ok (), { ready with files }) := World.change_ok hwrite
    unfold saveSettings
    rw [World.bind_of_eq hparent]
    dsimp only
    rw [World.bind_of_eq hhost]
    rfl

theorem saveSettings_succeeds_iff :
    (∃ after, (saveSettings s path : StateM World _) w = (.ok (), after)) ↔
      CanHoldSettings path w := by
  simp only [saveSettings_ok_iff]
  constructor
  · rintro ⟨after, ready, files, hparent, hwrite, -⟩
    obtain ⟨place, hplace, -⟩ := FileTree.write_ok_iff.mp hwrite
    exact ⟨ready, hparent, place, hplace⟩
  · rintro ⟨ready, hparent, place, hplace⟩
    exact ⟨_, ready, _, hparent, FileTree.write_ok_iff.mpr ⟨place, hplace, rfl⟩, rfl⟩

theorem read_of_saveSettings (h : (saveSettings s path : StateM World _) w = (.ok (), after)) :
    after.files.read path = .ok s.render := by
  obtain ⟨ready, files, -, hwrite, rfl⟩ := saveSettings_ok_iff.mp h
  obtain ⟨place, hplace, rfl⟩ := FileTree.write_ok_iff.mp hwrite
  exact FileTree.read_put hplace _

/-- Written settings are loaded. -/
theorem loadSettings_of_read (h : w.files.read path = .ok s.render) :
    (loadSettings path : StateM World _) w = (.ok s, w) := by
  have hexists : (Host.exists? path : StateM World _) w = (true, w) :=
    congrArg (·, w) (FileTree.contains_of_read h)
  have hread : (Host.read path : StateM World _) w = (.ok s.render, w) := congrArg (·, w) h
  unfold loadSettings
  rw [World.bind_of_eq hexists, if_pos rfl, World.bind_of_eq hread]
  dsimp only
  rw [s.parse?_render]
  rfl

end Saving

/-- Saving settings succeeds exactly if their file can be written, and then the settings are loaded as
they were, whatever their texts are and whether or not the log paths are set. -/
theorem loadSettings_saveSettings (s : Settings) (path : String) (w : World) :
    ((∃ after, (saveSettings s path : StateM World _) w = (.ok (), after)) ↔
      CanHoldSettings path w) ∧
      ∀ after, (saveSettings s path : StateM World _) w = (.ok (), after) →
        (loadSettings path : StateM World _) after = (.ok s, after) :=
  ⟨saveSettings_succeeds_iff, fun _ h => loadSettings_of_read (read_of_saveSettings h)⟩

/-- Settings with texts of every written form, and only one of the log paths. -/
def quotedSettings : Settings :=
  { marker := "\"\"\"\n'''\\"
    ignoredPaths := ["", "a,b", "'\"", "line\r\nline", "\t\x7f"]
    containers := { vectorTemplates := [], mapTemplates := ["é::map"] }
    diagnostics := { enabled := true, statsLog := some "" } }

/-- Texts of every written form come back. -/
theorem loadSettings_saveSettings_quoted :
    ∃ after, (saveSettings quotedSettings "luaexport.toml" : StateM World _) {} = (.ok (), after) ∧
      (loadSettings "luaexport.toml" : StateM World _) after = (.ok quotedSettings, after) := by
  have hplace : CanHoldSettings "luaexport.toml" {} :=
    ⟨{}, makeParent_of_name (by decide) {}, _, locateFile_name rfl (by decide) (by decide +kernel)
      (by decide) (by decide) (by decide) (by decide)⟩
  obtain ⟨after, hafter⟩ := (loadSettings_saveSettings quotedSettings _ _).1.mpr hplace
  exact ⟨after, hafter, (loadSettings_saveSettings quotedSettings _ _).2 after hafter⟩

end ScriptExport
