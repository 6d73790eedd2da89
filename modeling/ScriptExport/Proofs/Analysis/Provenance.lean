import ScriptExport.Proofs.Analysis.Simulation

/-!
# Locations are carried along

An analysis hands the locations of declarations on to its records and diagnostics and reads them only
where it looks for ignored paths. So it makes no difference whether the declarations are moved before
an analysis or the records and diagnostics after it (`analyzeTraced_relocate`): the states with moved
records and diagnostics follow those of the walk over the moved declarations (`simulation_relocate`).
-/

namespace ScriptExport

/-- The exports at their new places. -/
def UnitExports.relocate (f : Relocation) (e : UnitExports) : UnitExports :=
  { e with
    records := e.records.map (·.relocate f)
    diagnostics := e.diagnostics.map (·.relocate f) }

/-- The result with its exports moved. -/
def AnalysisResult.relocate (f : Relocation) (r : AnalysisResult) : AnalysisResult :=
  { r with exports := r.exports.relocate f }

namespace Analysis

/-- The state with its records and diagnostics moved. -/
def State.relocate (f : Relocation) (s : State) : State :=
  { s with
    records := s.records.map (·.relocate f)
    diagnostics := s.diagnostics.map (·.relocate f) }

variable {f : Relocation}

/-- What is done to a state with everything moved gives the moved result. -/
theorem simulation_relocate (f : Relocation) : Simulation f fun s t => t = s.relocate f where
  identities h := h ▸ rfl
  constants h := h ▸ rfl
  containers h := h ▸ rfl
  containerNames h := h ▸ rfl
  counter h := h ▸ rfl
  note h _ := h ▸ rfl
  report d h := by
    subst h
    simp [State.report, State.relocate, State.log, State.note, Diagnostic.relocate]
  push r h := by
    subst h
    simp [State.push, State.relocate, State.log, State.note, ExportRecord.relocate,
      ExportRecord.identity]
  update _ _ _ _ h := h ▸ rfl

/-- The run over a relocated unit is the relocated run. -/
theorem run_relocate {o : Options} (hf : f.Respects o) (traced : Bool) (u : TranslationUnit) :
    run o traced (u.relocate f) = (run o traced u).relocate f := by
  have hctx : Context.ofUnit o (u.relocate f) = (Context.ofUnit o u).relocate f := by
    unfold Context.ofUnit Context.relocate
    rw [← TypeIndex.ofDecls_relocate hf]
    rfl
  have hstart : ((State.start traced).log (.unitStarted u.filePath)).relocate f =
      (State.start traced).log (.unitStarted u.filePath) := by
    simp [State.relocate, State.start, State.log, State.note]
  have hwalk := (simulation_relocate f).walk_relocate hstart.symm (Context.ofUnit o u) hf u.decls
  unfold run
  dsimp only
  rw [hctx, show (u.relocate f).decls = u.decls.map (·.relocate f) from rfl,
    show (u.relocate f).filePath = u.filePath from rfl, hwalk]
  simp [State.relocate, State.log, State.note]

end Analysis

open Analysis

/-- Whether declarations are moved before an analysis, or its records and diagnostics after it, makes
no difference. -/
theorem analyzeTraced_relocate {f : Relocation} {o : Options} (hf : f.Respects o) (traced : Bool)
    (u : TranslationUnit) :
    analyzeTraced o traced (u.relocate f) = (analyzeTraced o traced u).map (·.relocate f) := by
  have hresult : ∀ s : State,
      (s.relocate f).result u.filePath = (s.result u.filePath).relocate f := by
    intro s
    simp [State.result, State.relocate, AnalysisResult.relocate, UnitExports.relocate]
  unfold analyzeTraced
  rw [TranslationUnit.check_relocate, run_relocate hf]
  cases u.check o with
  | error e => rfl
  | ok _ => exact congrArg Except.ok (hresult _)

/-- **Provenance decides nothing.** Without ignored paths, two accepted units that differ in the
locations of their declarations only have the same records and the same diagnostics but for the
locations in them, and the same trace. If one of the units is accepted, so is the other. -/
theorem exports_equal_but_for_locations (o : Options) (traced : Bool) (u v : TranslationUnit)
    (hpaths : o.ignoredPaths = []) (hsame : u.relocate .erase = v.relocate .erase)
    (haccepted : u.check o = .ok ()) :
    ∃ a b, analyzeTraced o traced u = .ok a ∧ analyzeTraced o traced v = .ok b ∧
      a.exports.records.map (·.relocate .erase) = b.exports.records.map (·.relocate .erase) ∧
      a.exports.diagnostics.map (·.relocate .erase) =
        b.exports.diagnostics.map (·.relocate .erase) ∧
      a.exports.filePath = b.exports.filePath ∧ a.trace = b.trace := by
  have hrespects := Relocation.erase.respects_of_ignoredPaths_eq_nil hpaths
  have haccepted' : v.check o = .ok () := by
    rw [← TranslationUnit.check_relocate .erase, ← hsame, TranslationUnit.check_relocate]
    exact haccepted
  have hu := analyzeTraced_of_check traced haccepted
  have hv := analyzeTraced_of_check traced haccepted'
  -- both results are, but for their locations, that of the unit without locations
  have hresult : AnalysisResult.relocate .erase ((run o traced u).result u.filePath) =
      AnalysisResult.relocate .erase ((run o traced v).result v.filePath) := by
    have hmoved := analyzeTraced_relocate hrespects traced u
    rw [hsame, analyzeTraced_relocate hrespects traced v, hu, hv] at hmoved
    exact (Except.ok.inj hmoved).symm
  refine ⟨_, _, hu, hv, ?_, ?_, ?_, ?_⟩
  · exact congrArg (·.exports.records) hresult
  · exact congrArg (·.exports.diagnostics) hresult
  · exact congrArg (·.exports.filePath) hresult
  · exact congrArg (·.trace) hresult

/-- A class whose getter and setter disagree on the type, written by hand in one unit and generated
into another file in the other. -/
theorem exports_equal_but_for_locations_generated_class :
    let unit : Location → TranslationUnit := fun l =>
      { filePath := "hero.h"
        decls := [
          .record { name := "Hero", location := some l, annotations := ["lua_export_class"] } {} [
            .method { name := "getLevel", location := some l, annotations := ["lua_export_property"] }
              { returnType := .builtin "int" },
            .method { name := "setLevel", location := none }
              { params := [{ type := .builtin "double" }] }]] }
    let u := unit ⟨"hero.h", 3, 1⟩
    let v := unit ⟨"gen/hero.inc", 90, 5⟩
    u.decls.map (·.location) ≠ v.decls.map (·.location) ∧
      ∃ a b, analyzeTraced {} true u = .ok a ∧ analyzeTraced {} true v = .ok b ∧
        a.exports.records.map (·.relocate .erase) = b.exports.records.map (·.relocate .erase) ∧
        a.exports.diagnostics.map (·.relocate .erase) =
          b.exports.diagnostics.map (·.relocate .erase) := by
  intro unit u v
  have haccepted : u.check {} = .ok () := TranslationUnit.check_default (by decide) rfl
  obtain ⟨a, b, ha, hb, hrecords, hdiagnostics, -, -⟩ :=
    exports_equal_but_for_locations {} true u v rfl rfl haccepted
  exact ⟨by decide, a, b, ha, hb, hrecords, hdiagnostics⟩

end ScriptExport
