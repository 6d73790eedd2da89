import ScriptExport.Command.Store
import ScriptExport.Proofs.Host.FileTree
import ScriptExport.Proofs.Manifest.RoundTrip

/-!
# Saved manifests

Saving writes a draft beside the path and moves it there. It succeeds exactly if the directory of the path
can be made and both paths can then hold a file, and what is loaded afterwards is the manifest that was
saved (`loadManifest_saveManifest`), whatever the format that the path asks for.
-/

namespace ScriptExport

namespace World

variable {α β : Type} {w s : World} {f : FileTree → Except FileFault FileTree}

theorem bind_of_eq {x : StateM World α} {k : α → StateM World β} {a : α} (h : x w = (a, s)) :
    (x >>= k) w = k a s := by
  simp only [bind, StateT.bind, h]

theorem change_ok {files : FileTree} (h : f w.files = .ok files) :
    change f w = (.ok (), { w with files }) := by
  simp [change, h]

theorem change_error {fault : FileFault} (h : f w.files = .error fault) :
    change f w = (.error fault, w) := by
  simp [change, h]

end World

/-- The path under which a manifest is first written. -/
def draftPath (path : String) : String :=
  Path.withExtension path "tmp"

/-- The directory of the path can be made, and draft and manifest can then be written. -/
def CanSave (path : String) (w : World) : Prop :=
  ∃ ready, (makeParent path : StateM World _) w = (.ok (), ready) ∧
    (∃ place, ready.files.locateFile (draftPath path) = .ok place) ∧
    ∃ place, ready.files.locateFile path = .ok place

section Saving

variable {m : Manifest} {path : String} {w after ready : World} {drafted files : FileTree}
  {fault : FileFault}

theorem saveManifest_of_makeParent_error
    (h : (makeParent path : StateM World _) w = (.error fault, ready)) :
    (saveManifest m path : StateM World _) w = (.error (.file fault), ready) := by
  unfold saveManifest
  rw [World.bind_of_eq h]
  rfl

section Parent

variable (hparent : (makeParent path : StateM World _) w = (.ok (), ready))
include hparent

theorem saveManifest_of_write_error
    (hwrite : ready.files.write (draftPath path) (m.render (.ofPath path)) = .error fault) :
    (saveManifest m path : StateM World _) w = (.error (.file fault), ready) := by
  have hdraft : (Host.write (draftPath path) (m.render (.ofPath path)) : StateM World _) ready =
      (.error fault, ready) := World.change_error hwrite
  unfold draftPath at hdraft
  unfold saveManifest
  rw [World.bind_of_eq hparent]
  dsimp only
  rw [World.bind_of_eq hdraft]
  rfl

/-- After the draft is written, moving it decides. -/
theorem saveManifest_of_write_ok {result : Except FileFault Unit}
    (hwrite : ready.files.write (draftPath path) (m.render (.ofPath path)) = .ok drafted)
    (hrename : (Host.rename (draftPath path) path : StateM World _) { ready with files := drafted } =
      (result, after)) :
    (saveManifest m path : StateM World _) w = (result.mapError .file, after) := by
  have hdraft : (Host.write (draftPath path) (m.render (.ofPath path)) : StateM World _) ready =
      (.ok (), { ready with files := drafted }) := World.change_ok hwrite
  unfold draftPath at hdraft hrename
  unfold saveManifest
  rw [World.bind_of_eq hparent]
  dsimp only
  rw [World.bind_of_eq hdraft]
  dsimp only
  rw [World.bind_of_eq hrename]
  cases result <;> rfl

end Parent

/-- A manifest is saved by writing a draft and renaming it. -/
theorem saveManifest_ok_iff : (saveManifest m path : StateM World _) w = (.ok (), after) ↔
    ∃ ready drafted files, (makeParent path : StateM World _) w = (.ok (), ready) ∧
      ready.files.write (draftPath path) (m.render (.ofPath path)) = .ok drafted ∧
      drafted.rename (draftPath path) path = .ok files ∧ after = { ready with files } := by
  constructor
  · intro h
    rcases hparent : (makeParent path : StateM World _) w with ⟨fault | ⟨⟩, ready⟩
    · rw [saveManifest_of_makeParent_error hparent] at h
      cases h
    · cases hwrite : ready.files.write (draftPath path) (m.render (.ofPath path)) with
      | error fault =>
        rw [saveManifest_of_write_error hparent hwrite] at h
        cases h
      | ok drafted =>
        cases hrename : drafted.rename (draftPath path) path with
        | error fault =>
          rw [saveManifest_of_write_ok hparent hwrite (World.change_error hrename)] at h
          cases h
        | ok files =>
          rw [saveManifest_of_write_ok hparent hwrite (World.change_ok hrename)] at h
          cases h
          exact ⟨ready, drafted, files, rfl, hwrite, hrename, rfl⟩
  · rintro ⟨ready, drafted, files, hparent, hwrite, hrename, rfl⟩
    exact saveManifest_of_write_ok hparent hwrite (World.change_ok hrename)

theorem loadManifest_of_parse {text : String} (hread : w.files.read path = .ok text)
    (hparse : Manifest.parse? (.ofPath path) text = some m) :
    (loadManifest path : StateM World _) w = (.ok m, w) := by
  have hhost : (Host.read path : StateM World _) w = (.ok text, w) := congrArg (·, w) hread
  unfold loadManifest
  rw [World.bind_of_eq hhost]
  dsimp only
  rw [hparse]
  rfl

theorem loadManifest_of_read (h : w.files.read path = .ok (m.render (.ofPath path))) :
    (loadManifest path : StateM World _) w = (.ok m, w) :=
  loadManifest_of_parse h (m.parse?_render _)

theorem loadIndexed_of_parse {text : String} (hread : w.files.read path = .ok text)
    (hparse : Manifest.parse? (.ofPath path) text = some m) :
    (loadIndexed path : StateM World _) w = (.ok (.ofManifest m), w) := by
  unfold loadIndexed
  rw [World.bind_of_eq (loadManifest_of_parse hread hparse)]
  rfl

/-- What is loaded was read and parsed. -/
theorem loadManifest_eq_ok (h : (loadManifest path : StateM World _) w = (.ok m, after)) :
    ∃ text, w.files.read path = .ok text ∧ Manifest.parse? (.ofPath path) text = some m ∧
      after = w := by
  have hhost : (Host.read path : StateM World _) w = (w.files.read path, w) := rfl
  unfold loadManifest at h
  rw [World.bind_of_eq hhost] at h
  cases hread : w.files.read path with
  | error fault =>
    rw [hread] at h
    cases h
  | ok text =>
    rw [hread] at h
    cases hparse : Manifest.parse? (.ofPath path) text with
    | none =>
      dsimp only at h
      rw [hparse] at h
      cases h
    | some found =>
      dsimp only at h
      rw [hparse] at h
      cases h
      exact ⟨text, rfl, hparse, rfl⟩

theorem loadIndexed_eq_ok {indexed : IndexedManifest}
    (h : (loadIndexed path : StateM World _) w = (.ok indexed, after)) :
    ∃ m, (loadManifest path : StateM World _) w = (.ok m, after) ∧ indexed = .ofManifest m := by
  unfold loadIndexed at h
  rcases hload : (loadManifest path : StateM World _) w with ⟨fault | m, mid⟩
  · rw [World.bind_of_eq hload] at h
    cases h
  · rw [World.bind_of_eq hload] at h
    cases h
    exact ⟨m, rfl, rfl⟩

/-- The draft can be moved to the path exactly if the path could hold a file before it was written. -/
theorem rename_draft_ok_iff {t u : FileTree} {text : String}
    (hwrite : t.write (draftPath path) text = .ok u) :
    (∃ files, u.rename (draftPath path) path = .ok files) ↔
      ∃ place, t.locateFile path = .ok place := by
  obtain ⟨draft, hdraft, rfl⟩ := FileTree.write_ok_iff.mp hwrite
  have hsame := FileTree.SameDirectories.put (FileTree.locateFile_ok_iff.mp hdraft).2.2 text
  obtain ⟨origin, horigin, hnode⟩ := FileTree.read_ok_iff.mp (FileTree.read_put hdraft text)
  constructor
  · rintro ⟨files, hfiles⟩
    obtain ⟨-, place, -, -, -, hplace, -⟩ := FileTree.rename_ok_iff.mp hfiles
    exact ⟨place, hsame.symm.locateFile hplace⟩
  · rintro ⟨place, hplace⟩
    exact ⟨_, FileTree.rename_ok_iff.mpr
      ⟨origin, place, text, horigin, hnode, hsame.locateFile hplace, rfl⟩⟩

/-- Saving works where directory, draft and target allow it. -/
theorem saveManifest_succeeds_iff :
    (∃ after, (saveManifest m path : StateM World _) w = (.ok (), after)) ↔ CanSave path w := by
  simp only [saveManifest_ok_iff]
  constructor
  · rintro ⟨after, ready, drafted, files, hparent, hwrite, hrename, -⟩
    obtain ⟨draft, hdraft, -⟩ := FileTree.write_ok_iff.mp hwrite
    exact ⟨ready, hparent, ⟨draft, hdraft⟩, (rename_draft_ok_iff hwrite).mp ⟨files, hrename⟩⟩
  · rintro ⟨ready, hparent, ⟨draft, hdraft⟩, hplace⟩
    have hwrite := FileTree.write_ok_iff.mpr
      ⟨draft, hdraft, (rfl : _ = ready.files.put draft (.file (m.render (.ofPath path))))⟩
    obtain ⟨files, hrename⟩ := (rename_draft_ok_iff hwrite).mpr hplace
    exact ⟨_, ready, _, files, hparent, hwrite, hrename, rfl⟩

/-- The file holds what was saved. -/
theorem read_of_saveManifest (h : (saveManifest m path : StateM World _) w = (.ok (), after)) :
    after.files.read path = .ok (m.render (.ofPath path)) := by
  obtain ⟨ready, drafted, files, -, hwrite, hrename, rfl⟩ := saveManifest_ok_iff.mp h
  obtain ⟨draft, hdraft, rfl⟩ := FileTree.write_ok_iff.mp hwrite
  exact FileTree.read_of_rename hrename (FileTree.read_put hdraft _)

end Saving

/-- Saving a manifest succeeds exactly if its files can be written, and then the manifest is loaded as it
was, with the order of its attributes. The path decides between the formats. -/
theorem loadManifest_saveManifest (m : Manifest) (path : String) (w : World) :
    ((∃ after, (saveManifest m path : StateM World _) w = (.ok (), after)) ↔ CanSave path w) ∧
      ∀ after, (saveManifest m path : StateM World _) w = (.ok (), after) →
        (loadManifest path : StateM World _) after = (.ok m, after) :=
  ⟨saveManifest_succeeds_iff, fun _ h => loadManifest_of_read (read_of_saveManifest h)⟩

/-- A manifest with attributes out of order, the least enumerator and texts that need escapes. -/
def unsortedManifest : Manifest :=
  { version := "1.0"
    generatedAt := "2024-01-01T00:00:00Z"
    units := [
      { filePath := "src/é.h"
        records := [
          { kind := .enumeration
            name := "Mode"
            scriptName := "Mode"
            qualifiedName := "app::Mode"
            attributes := ⟨[("z key", "\"\"\"\n'''"), ("a", "\\\t\x7f")], by decide⟩
            enumerators := [⟨"Least", Int64.minValue⟩]
            returnType := some "" }]
        diagnostics := [⟨.unresolvedType, "", some ⟨"src/é.h", 1, 0⟩⟩] },
      { filePath := "", records := [], diagnostics := [] }] }

/-- A plain name is a place in the root. -/
theorem locateFile_name {name : String} (hempty : name.isEmpty = false)
    (habsolute : Path.isAbsolute name = false) (hslash : name.endsWith "/" = false)
    (hnames : ((Text.segments (· == '/') name.toList).filter fun s => !s.isEmpty).map String.ofList =
      [name]) (hdot : name ≠ ".") (hdots : name ≠ "..") (hroot : name ≠ "/") :
    ({} : FileTree).locateFile name = .ok [name] := by
  have hsteps : Path.steps name = [name] := by
    unfold Path.steps
    dsimp only
    rw [hslash, hnames]
    rfl
  have hfollow : ({} : FileTree).follow [] [name] = .ok [name] := by
    show (if name = "." then _ else if name = ".." then _ else _) = _
    rw [if_neg hdot, if_neg hdots]
    rfl
  have hnode : ({} : FileTree).node? [name] = none := by
    have hnot : FileTree.isRoot [name] = false := by simp [FileTree.isRoot, hroot]
    rw [FileTree.node?, hnot]
    rfl
  refine FileTree.locateFile_ok_iff.mpr ⟨hslash, ?_, by simp [hnode]⟩
  rw [FileTree.locate, hempty, habsolute, hsteps]
  exact hfollow

theorem makeParent_of_name {path : String} (h : Path.parent? path = some "") (w : World) :
    (makeParent path : StateM World _) w = (.ok (), w) := by
  unfold makeParent
  rw [h]
  rfl

theorem locateFile_draft : ({} : FileTree).locateFile "exports.tmp" = .ok ["exports.tmp"] :=
  locateFile_name rfl (by decide) (by decide +kernel) (by decide) (by decide) (by decide) (by decide)

theorem canSave_json : CanSave "exports.json" {} :=
  ⟨{}, makeParent_of_name (by decide) {}, ⟨_, locateFile_draft⟩, _, locateFile_name rfl (by decide)
    (by decide +kernel) (by decide) (by decide) (by decide) (by decide)⟩

/-- Both formats give the manifest back, attributes out of order and all. -/
theorem loadManifest_saveManifest_unsorted :
    ∃ toml json, (saveManifest unsortedManifest "exports.toml" : StateM World _) {} = (.ok (), toml) ∧
      (loadManifest "exports.toml" : StateM World _) toml = (.ok unsortedManifest, toml) ∧
      (saveManifest unsortedManifest "exports.json" : StateM World _) {} = (.ok (), json) ∧
      (loadManifest "exports.json" : StateM World _) json = (.ok unsortedManifest, json) := by
  have htoml : CanSave "exports.toml" {} :=
    ⟨{}, makeParent_of_name (by decide) {}, ⟨_, locateFile_draft⟩, _, locateFile_name rfl (by decide)
      (by decide +kernel) (by decide) (by decide) (by decide) (by decide)⟩
  obtain ⟨toml, htoml⟩ := (loadManifest_saveManifest unsortedManifest _ _).1.mpr htoml
  obtain ⟨json, hjson⟩ := (loadManifest_saveManifest unsortedManifest _ _).1.mpr canSave_json
  exact ⟨toml, json, htoml, (loadManifest_saveManifest unsortedManifest _ _).2 toml htoml, hjson,
    (loadManifest_saveManifest unsortedManifest _ _).2 json hjson⟩

end ScriptExport
