import ScriptExport.Proofs.Analysis.Acceptance
import ScriptExport.Proofs.Analysis.Changes
import ScriptExport.Proofs.Analysis.Steps

/-!
# The result at every point of a walk

Records and diagnostics are only ever appended, every record has a name, and the set of identities
that decides whether a record is a redeclaration is the set of the identities of the records, no two
of which are equal (`State.Sound`). One change of the state keeps this (`State.Sound.of_change`), and
every step of a walk is a sequence of changes (`changes_of_mem_walkSteps`), so it holds after every
beginning of the steps.
-/

namespace ScriptExport.Analysis

/-- What holds of records and identities at every point. -/
structure State.Sound (s : State) : Prop where
  named : ∀ r ∈ s.records.toList,
    Text.isBlankText r.name = false ∧ Text.isBlankText r.qualifiedName = false
  identities : ∀ i, i ∈ s.identities ↔ ∃ r ∈ s.records.toList, r.identity = i
  distinct : (s.records.toList.map (·.identity)).Nodup

namespace State.Sound

variable {P : ExportRecord → Prop} {s t : State}

theorem start (traced : Bool) : (State.start traced).Sound where
  named _ hr := by cases hr
  identities _ := ⟨fun h => (by cases h), fun ⟨_, hr, _⟩ => (by cases hr)⟩
  distinct := List.nodup_nil

/-- A state with the records and the identities of a sound one. -/
theorem of_eq (hs : s.Sound) (hr : t.records = s.records) (hi : t.identities = s.identities) :
    t.Sound where
  named := hr ▸ hs.named
  identities := hr ▸ hi ▸ hs.identities
  distinct := hr ▸ hs.distinct

/-- A record that is admitted keeps the state sound. -/
theorem push {r : ExportRecord} (hs : s.Sound) (hr : s.admits r = true) : (s.push r).Sound := by
  obtain ⟨hvalid, hnew⟩ := Bool.and_eq_true_iff.mp hr
  have hfresh : r.identity ∉ s.identities := of_decide_eq_true hnew
  have hrecords : (s.push r).records.toList = s.records.toList ++ [r] := by
    simp [State.push, State.log, State.note]
  have hidentities : (s.push r).identities = r.identity :: s.identities := rfl
  constructor
  case named =>
    intro r' hr'
    rw [hrecords] at hr'
    rcases List.mem_append.mp hr' with hr' | hr'
    · exact hs.named r' hr'
    · rw [List.mem_singleton.mp hr']
      exact ExportRecord.isValid_iff.mp hvalid
  case identities =>
    intro i
    rw [hrecords, hidentities, List.mem_cons, hs.identities]
    simp only [List.mem_append, List.mem_singleton, or_and_right, exists_or, exists_eq_left]
    exact or_comm.trans (or_congr_right eq_comm)
  case distinct =>
    rw [hrecords, List.map_append, List.nodup_append]
    refine ⟨hs.distinct, by simp, ?_⟩
    intro i hi j hj
    obtain ⟨r', hr', rfl⟩ := List.mem_map.mp hi
    obtain rfl : j = r.identity := by simpa using hj
    intro heq
    exact hfresh ((hs.identities _).mpr ⟨r', hr', heq⟩)

/-- Every change keeps the state sound. -/
theorem of_change (h : State.Change P s t) (hs : s.Sound) : t.Sound := by
  cases h with
  | note step => exact hs.of_eq rfl rfl
  | report d => exact hs.of_eq rfl rfl
  | push r hP admitted => exact hs.push admitted
  | constants m => exact hs.of_eq rfl rfl
  | counter c => exact hs.of_eq rfl rfl
  | register r hP hkind instantiation => exact hs.of_eq rfl rfl

theorem of_changes (h : s.Changes P t) (hs : s.Sound) : t.Sound := by
  induction h with
  | refl => exact hs
  | tail _ change ih => exact ih.of_change change

/-- An identity belongs to a record that was there before or is one of those added. -/
theorem exists_record (hs : s.Sound) (h : s.Changes P t) {i : Identity} (hi : i ∈ t.identities) :
    ∃ r ∈ t.records.toList, r.identity = i ∧ (r ∉ s.records.toList → P r) := by
  obtain ⟨r, hr, hidentity⟩ := ((hs.of_changes h).identities i).mp hi
  refine ⟨r, hr, hidentity, fun hnew => ?_⟩
  obtain ⟨new, hrecords, -, hadded⟩ := h.extends.records
  rw [hrecords] at hr
  exact (hadded r ((List.mem_append.mp hr).resolve_left hnew)).1

end State.Sound

/-! ## Steps -/

/-- The steps of a walk are made of changes if its leaves are. -/
theorem stepCases_changes {P : ExportRecord → Prop} {vs : List Visit}
    (hother : ∀ r : ExportRecord, r.kind ≠ .container → P r)
    (hleaf : ∀ v ∈ vs, ∀ (a : Directive) (s : State), s.Changes P (exportLeaf v.ctx v.decl a s)) :
    StepCases vs fun step => ∀ x : Surface, x.state.Changes P (step x).state where
  visit v _ x := changes_visit x.state v.ctx v.decl
  visitMember marker d x := changes_visitMember x.state marker d
  report d x := changes_report x.state d
  emit r hr x := changes_emit x.state (hother r hr)
  leaf v hv a _ x := hleaf v hv a x.state
  restart _ := .refl
  slot ctx owner source m slot x := by
    refine changes_addSlot ?_ x ctx owner source m slot
    intro r hr
    refine hother r fun hkind => ?_
    rw [hkind] at hr
    cases hr

/-- What a walk does step by step is made of changes. -/
theorem changes_of_mem_walkSteps {ctx : Context} {ds : List Decl} {step : Step}
    (h : step ∈ walkSteps ctx ds) (x : Surface) :
    x.state.Changes (fun _ => True) (step x).state := by
  refine (stepCases_changes (fun _ _ => trivial) ?_).of_mem_walkSteps h x
  exact fun v _ a s =>
    changes_exportLeaf (fun _ _ => trivial) (fun _ _ => trivial) s v.ctx v.decl a

/-- A run changes the state as its steps do. -/
theorem changes_runSteps {P : ExportRecord → Prop} {steps : List Step}
    (h : ∀ step ∈ steps, ∀ x : Surface, x.state.Changes P (step x).state) (x : Surface) :
    x.state.Changes P (runSteps steps x).state := by
  induction steps generalizing x with
  | nil => exact .refl
  | cons step steps ih =>
    have hstep := h step List.mem_cons_self x
    exact hstep.trans (ih (fun other hother => h other (List.mem_cons_of_mem step hother)) _)

/-- What an analysis starts from. -/
def Surface.ofUnit (traced : Bool) (u : TranslationUnit) : Surface :=
  { state := (State.start traced).log (.unitStarted u.filePath) }

theorem sound_ofUnit (traced : Bool) (u : TranslationUnit) :
    (Surface.ofUnit traced u).state.Sound :=
  (State.Sound.start traced).of_changes (changes_log (P := fun _ => True) _ _)

theorem records_run (o : Options) (traced : Bool) (u : TranslationUnit) :
    (run o traced u).records =
      (runSteps (walkSteps (Context.ofUnit o u) u.decls) (.ofUnit traced u)).state.records := by
  rw [runSteps_walkSteps]
  rfl

theorem diagnostics_run (o : Options) (traced : Bool) (u : TranslationUnit) :
    (run o traced u).diagnostics =
      (runSteps (walkSteps (Context.ofUnit o u) u.decls) (.ofUnit traced u)).state.diagnostics := by
  rw [runSteps_walkSteps]
  rfl

end ScriptExport.Analysis

namespace ScriptExport

open Analysis

/-- **The result only grows.** The analysis of an accepted unit ends with the last point of its walk.
Every point is sound, and its records and diagnostics are a beginning of those of every later
point. -/
theorem points_sound_and_growing (o : Options) (traced : Bool) (u : TranslationUnit)
    (h : u.check o = .ok ()) :
    let steps := walkSteps (Context.ofUnit o u) u.decls
    let point := fun done => (runSteps done (.ofUnit traced u)).state
    ∃ result, analyzeTraced o traced u = .ok result ∧
      result.exports.records = (point steps).records.toList ∧
      result.exports.diagnostics = (point steps).diagnostics.toList ∧
      ∀ done more rest, steps = done ++ more ++ rest →
        (point done).Sound ∧
        (point done).records.toList <+: (point (done ++ more)).records.toList ∧
        (point done).diagnostics.toList <+: (point (done ++ more)).diagnostics.toList := by
  intro steps point
  refine ⟨(run o traced u).result u.filePath, ?_, ?_, ?_, ?_⟩
  · unfold analyzeTraced
    rw [h]
    rfl
  · exact congrArg Array.toList (records_run o traced u)
  · exact congrArg Array.toList (diagnostics_run o traced u)
  · intro done more rest hsteps
    have hchanges : ∀ step ∈ done ++ more ++ rest, ∀ x : Surface,
        x.state.Changes (fun _ => True) (step x).state := fun step hstep =>
      changes_of_mem_walkSteps (hsteps ▸ hstep)
    have hdone : (point done).Sound :=
      (sound_ofUnit traced u).of_changes
        (changes_runSteps (fun step hstep => hchanges step (by simp [hstep])) _)
    have hmore : (point done).Changes (fun _ => True) (point (done ++ more)) := by
      dsimp only [point]
      rw [runSteps_append]
      exact changes_runSteps (fun step hstep => hchanges step (by simp [hstep])) _
    obtain ⟨new, hrecords, -⟩ := hmore.extends.records
    exact ⟨hdone, ⟨new, hrecords.symm⟩, hmore.extends.diagnostics⟩

/-- A class that takes over the members of an unexported base, at the point where its own record has
been made and its members have not. -/
theorem points_sound_and_growing_inherited_members :
    let base := Decl.record { name := "Base" } {} [.method { name := "ping" } {}]
    let hero := Decl.record { name := "Hero", annotations := ["lua_export_class"] }
      { bases := [{ name := "Base" }] } [.field { name := "hp" } { type := .void }]
    let u : TranslationUnit := { filePath := "hero.h", decls := [base, hero] }
    let steps := walkSteps (Context.ofUnit {} u) u.decls
    let point := fun done => (runSteps done (.ofUnit true u)).state
    ∃ result, analyzeTraced {} true u = .ok result ∧ (point (steps.take 6)).Sound ∧
      (point (steps.take 6)).records.toList <+: result.exports.records ∧
      (point (steps.take 6)).diagnostics.toList <+: result.exports.diagnostics := by
  intro base hero u steps point
  have haccepted : u.check {} = .ok () := TranslationUnit.check_default (by decide) rfl
  obtain ⟨result, hresult, hrecords, hdiagnostics, hpoints⟩ :=
    points_sound_and_growing {} true u haccepted
  obtain ⟨hsound, hgrow, hgrow'⟩ :=
    hpoints (steps.take 6) (steps.drop 6) [] (by rw [List.append_nil, List.take_append_drop])
  rw [List.take_append_drop] at hgrow hgrow'
  rw [← hrecords] at hgrow
  rw [← hdiagnostics] at hgrow'
  exact ⟨result, hresult, hsound, hgrow, hgrow'⟩

end ScriptExport
