import Mathlib.Data.List.TakeWhile
import ScriptExport.Proofs.Analysis.Containers
import ScriptExport.Proofs.Analysis.Origins

/-!
# Names on the script side

A record is admitted only if its own name is not blank, and its script name comes from that name or from
an alias. An alias of blanks only is passed over wherever `Naming.scriptName` chooses
(`isBlankText_scriptName`), also in the index, from which a binding to a base has its script name
(`isBlankText_scriptName_of_mem_entries`). What a directive makes of a container is said once
(`IsContainerRecord`), and what holds of these records and of all others holds of a whole result
(`forall_mem_records_of`). The alias of a container is taken as it stands, only trimmed, so it can leave the
container without a name (`NamedByAlias`). That is the one way to a blank script name, and since the names of
containers are distinct, one record of a unit at most has one.
-/

namespace ScriptExport

namespace ExportRecord

/-- The alias that the record shows. -/
def alias? (r : ExportRecord) : Option String :=
  (r.attribute? "alias").filter fun name => !name.isEmpty

/-- Whether the record shows an alias of blanks only. -/
def hasBlankAlias (r : ExportRecord) : Bool :=
  r.alias?.any Text.isBlankText

theorem alias?_eq {r : ExportRecord} {a : Directive} (h : r.attributes = a.attributes) :
    r.alias? = a.scriptAlias? := by
  unfold alias? attribute? Directive.scriptAlias? Directive.attribute?
  rw [h]

end ExportRecord

/-! ## Chosen names -/

/-- A name that is not blank is shown by one that is not. -/
theorem isBlankText_scriptName {name : String} (hname : Text.isBlankText name = false)
    (aliased : Option String) : Text.isBlankText (Naming.scriptName name aliased) = false := by
  unfold Naming.scriptName
  cases aliased with
  | none => exact hname
  | some text =>
    rw [Option.bind_some, Text.trimmed?]
    split
    · exact hname
    · next hblank =>
      rw [Option.getD_some, Text.isBlankText_trim]
      simpa using hblank

theorem TypeIndex.isBlankText_scriptName_of_entryOf? {o : Options} {scope : List String} {d : Decl}
    {e : TypeEntry} (h : entryOf? o scope d = some e) : Text.isBlankText e.scriptName = false := by
  unfold entryOf? at h
  dsimp only at h
  split at h
  · cases h
  · next hkept =>
    cases h
    simp only [Bool.or_eq_true, not_or, Bool.not_eq_true] at hkept
    exact isBlankText_scriptName hkept.1.1 _

theorem TypeIndex.isBlankText_scriptName_of_mem_entries {o : Options} {ds : List Decl} {e : TypeEntry}
    (he : e ∈ (ofDecls o ds).entries) : Text.isBlankText e.scriptName = false := by
  obtain ⟨first, hfirst, hname⟩ := scriptName_of_mem_entries he
  rw [hname]
  exact forall_mem_indexed (P := fun e => Text.isBlankText e.scriptName = false)
    (fun _ _ _ => isBlankText_scriptName_of_entryOf?) [] ds (List.mem_of_find?_eq_some hfirst)

/-- A generated name ends in the word of its family. -/
theorem isBlankText_containerName (rules : ContainerRules) (kind : ContainerKind)
    (elements : List TypeRef) :
    Text.isBlankText (Naming.containerName rules kind elements) = false := by
  have hsuffix : Text.isBlankText kind.suffix = false := by cases kind <;> decide
  rw [Naming.containerName, Text.isBlankText_append, hsuffix, Bool.and_false]

theorem isBlankText_freshName {name : String} (hname : Text.isBlankText name = false)
    (taken : List String) (c : Counter) : Text.isBlankText (c.freshName taken name).1 = false := by
  unfold Counter.freshName
  split
  · rw [Text.isBlankText_append, hname, Bool.false_and]
  · exact hname

namespace Analysis

theorem isBlankText_uniqueContainerName {generated : String}
    (hgenerated : Text.isBlankText generated = false) (s : State) (h : Header)
    (instantiation : String) :
    Text.isBlankText (s.uniqueContainerName h generated instantiation).1 = false := by
  unfold State.uniqueContainerName
  split
  · exact isBlankText_freshName hgenerated _ _
  · exact hgenerated

/-! ## Records other than containers -/

/-- A declaration that is exported as something else than a container is known by its alias or by its
name. -/
theorem Context.Represents.exists_scriptName_eq {ctx : Context} {d : Decl} {r : ExportRecord}
    {ts : List TypeRef} (h : ctx.Represents d r ts) (hkind : r.kind ≠ .container) :
    ∃ aliased, r.scriptName = Naming.scriptName r.name aliased := by
  cases h with
  | container => exact (hkind rfl).elim
  | _ => exact ⟨_, rfl⟩

/-- Only containers can be shown by a blank name. -/
theorem Visit.Makes.isBlankText_scriptName {v : Visit} {m : Option Decl} {r : ExportRecord} {h : Header}
    {ts : List TypeRef} (hmakes : v.Makes m r h ts)
    (hindex : ∀ e ∈ v.ctx.index.entries, Text.isBlankText e.scriptName = false)
    (hname : Text.isBlankText r.name = false) (hkind : r.kind ≠ .container) :
    Text.isBlankText r.scriptName = false := by
  have hrepresented : ∀ {ctx : Context} {d : Decl}, ctx.Represents d r ts →
      Text.isBlankText r.scriptName = false := by
    intro ctx d h
    obtain ⟨aliased, heq⟩ := h.exists_scriptName_eq hkind
    rw [heq]
    exact ScriptExport.isBlankText_scriptName hname aliased
  cases hmakes with
  | itself h => exact hrepresented h
  | member _ _ _ h => exact hrepresented h
  | binding _ _ he _ => exact hindex _ (TypeIndex.mem_entries_of_mem_ancestry he)
  | property => exact ScriptExport.isBlankText_scriptName hname _

/-! ## Containers -/

/-- The records that a directive makes of a container: a view under its alias, without blanks at either
end, or without an alias the instantiation under a name that was free at some point. -/
inductive IsContainerRecord (ctx : Context) (h : Header) (a : Directive) : ExportRecord → Prop where
  | view {name : String} {kind : ContainerKind} {elements : List TypeRef}
    (halias : a.scriptAlias? = some name) :
    IsContainerRecord ctx h a (ctx.containerRecord h a (Text.trim name) kind elements)
  | instantiation (s : State) {kind : ContainerKind} {elements : List TypeRef} {qualifiedName : String}
    (halias : a.scriptAlias? = none) :
    IsContainerRecord ctx h a
      { ctx.containerRecord h a (s.uniqueContainerName h
          (Naming.containerName ctx.options.containers kind elements) qualifiedName).1 kind elements with
        qualifiedName }

section Leaves

variable {P : ExportRecord → Prop} {ctx : Context} {h : Header} {a : Directive}

/-- What an export of a container comes to: reports and uses of types, and after them at most one
record. -/
theorem exportContainer_cases (s : State) (target : TypeRef) (expected : ContainerKind) :
    ∃ t : State, s.Changes (fun _ => False) t ∧
      (exportContainer ctx h target a expected s = t ∨
        ∃ r instantiation, IsContainerRecord ctx h a r ∧ r.kind = .container ∧
          exportContainer ctx h target a expected s = t.emitContainer r instantiation) := by
  unfold exportContainer
  split
  · exact ⟨_, changes_report _ _, .inl rfl⟩
  · next detected arguments _ =>
    have hbegin : s.Changes (fun _ => False) ((s.reportAll
        (containerShape h expected a.kind.name detected arguments).2).useType h target) :=
      (changes_reportAll s _).trans (changes_useType _ h target)
    dsimp only
    split
    · next name halias =>
      unfold exportView
      split
      · exact ⟨_, hbegin.trans (changes_report _ _), .inl rfl⟩
      · exact ⟨_, hbegin.trans (changes_useTypes _ h _), .inr ⟨_, none, .view halias, rfl, rfl⟩⟩
    · next halias =>
      unfold exportInstantiation
      split
      · exact ⟨_, hbegin.trans (changes_report _ _), .inl rfl⟩
      · exact ⟨_, hbegin.trans ((changes_uniqueContainerName _ h _ _).trans (changes_useTypes _ h _)),
          .inr ⟨_, _, .instantiation _ halias, rfl, rfl⟩⟩

theorem changes_exportContainer_of (hP : ∀ r, IsContainerRecord ctx h a r → P r) (s : State)
    (target : TypeRef) (expected : ContainerKind) :
    s.Changes P (exportContainer ctx h target a expected s) := by
  obtain ⟨t, ht, hsame | ⟨r, instantiation, hr, hkind, hemit⟩⟩ :=
    exportContainer_cases s target expected
  · rw [hsame]
    exact ht.mono fun _ => False.elim
  · rw [hemit]
    exact (ht.mono fun _ => False.elim).trans (changes_emitContainer t (hP r hr) hkind instantiation)

theorem changes_exportLeaf_of (hother : ∀ r : ExportRecord, r.kind ≠ .container → P r)
    (hP : ∀ h r, IsContainerRecord ctx h a r → P r) (s : State) (d : Decl) :
    s.Changes P (exportLeaf ctx d a s) := by
  have hplain : ∀ r : ExportRecord, r.kind.isPlain = true → P r := by
    intro r hr
    refine hother r fun hkind => ?_
    rw [hkind] at hr
    cases hr
  unfold exportLeaf
  split
  · exact changes_exportFunction hplain s ctx _ _ a
  · exact changes_exportVariable hplain s ctx _ _ a
  · exact changes_exportEnum hplain s ctx _ _ a
  · unfold exportAlias
    split
    · exact changes_exportCallback hplain s ctx _ _ a
    · exact changes_exportContainer_of (hP _) s _ _
    · exact changes_exportContainer_of (hP _) s _ _
    · exact .refl
  · exact .refl

end Leaves

/-- What holds of all records but containers, and of the containers that directives make, holds of all
records of a unit. -/
theorem forall_mem_records_of {P : ExportRecord → Prop} (o : Options) (u : TranslationUnit)
    (hother : ∀ r : ExportRecord, r.kind ≠ .container → P r)
    (hcontainer : ∀ ctx h a r, ctx.options = o → IsContainerRecord ctx h a r → P r) :
    ∀ r ∈ (finalState o u).records.toList, P r := by
  intro r hr
  have hsteps : ∀ step ∈ walkSteps (Context.ofUnit o u) u.decls, ∀ x : Surface,
      x.state.Changes P (step x).state := by
    intro step hstep
    refine (stepCases_changes hother fun v hv a s => ?_).of_mem_walkSteps hstep
    refine changes_exportLeaf_of hother (fun h r => ?_) s v.decl
    exact hcontainer v.ctx h a r (options_of_mem_visits hv)
  have hchanges : State.Changes P {} (finalState o u) := by
    have hrun := changes_runSteps hsteps { state := {} }
    rwa [runSteps_walkSteps] at hrun
  obtain ⟨new, hrecords, -, hnew⟩ := hchanges.extends.records
  rw [hrecords] at hr
  exact (hnew r hr).1

/-- If the record is that of a container, it is known by its alias, without blanks at either end, or
by a name that is not blank. -/
def NamedByAlias (r : ExportRecord) : Prop :=
  r.kind = .container →
    match r.alias? with
    | some name => r.scriptName = Text.trim name
    | none => Text.isBlankText r.scriptName = false

namespace NamedByAlias

variable {r : ExportRecord} (hr : NamedByAlias r) (hkind : r.kind = .container)
include hr hkind

theorem isBlankText_eq : Text.isBlankText r.scriptName = r.hasBlankAlias := by
  have hname := hr hkind
  unfold ExportRecord.hasBlankAlias
  split at hname
  · next name halias => rw [halias, hname, Text.isBlankText_trim, Option.any_some]
  · next halias => rw [halias, hname, Option.any_none]

theorem scriptName_eq_empty (hblank : Text.isBlankText r.scriptName = true) : r.scriptName = "" := by
  have hname := hr hkind
  split at hname
  · next name _ =>
    rw [hname, Text.isBlankText_trim] at hblank
    rw [hname, Text.trim_of_isBlankText hblank]
  · rw [hname] at hblank
    cases hblank

end NamedByAlias

theorem IsContainerRecord.namedByAlias {ctx : Context} {h : Header} {a : Directive} {r : ExportRecord}
    (hr : IsContainerRecord ctx h a r) : NamedByAlias r := by
  intro _
  cases hr with
  | view halias =>
    rw [ExportRecord.alias?_eq (a := a) rfl, halias]
    rfl
  | instantiation s halias =>
    rw [ExportRecord.alias?_eq (a := a) rfl, halias]
    exact isBlankText_uniqueContainerName (isBlankText_containerName _ _ _) s h _

/-! ## All records of a unit -/

section Units

variable {o : Options} {u : TranslationUnit} {r : ExportRecord}
  (hr : r ∈ (finalState o u).records.toList)
include hr

theorem namedByAlias_of_mem_records : NamedByAlias r :=
  forall_mem_records_of o u (fun _ hother hkind => absurd hkind hother)
    (fun _ _ _ _ _ hr => hr.namedByAlias) r hr

/-- Blank names come from blank aliases of containers. -/
theorem isBlankText_scriptName_iff :
    Text.isBlankText r.scriptName = true ↔ r.kind = .container ∧ r.hasBlankAlias = true := by
  by_cases hkind : r.kind = .container
  · rw [(namedByAlias_of_mem_records hr).isBlankText_eq hkind]
    simp [hkind]
  · obtain ⟨p, hp, v, m, h, ts, hvisit, hmakes, -⟩ := exists_makes_of_mem_records hr
    have hv : v ∈ visits (Context.ofUnit o u) u.decls := mem_visits_iff.mpr ⟨p, hp, hvisit⟩
    have hindex : ∀ e ∈ v.ctx.index.entries, Text.isBlankText e.scriptName = false := by
      rw [index_of_mem_visits hv]
      exact fun e => TypeIndex.isBlankText_scriptName_of_mem_entries
    rw [hmakes.isBlankText_scriptName hindex ((sound_finalState o u).named r hr).1 hkind]
    simp [hkind]

end Units

theorem registry_finalState (o : Options) (u : TranslationUnit) :
    (finalState o u).Registry (ContainerOrigin o u) := by
  have hrun := registry_runSteps (x := { state := {} })
    (fun step hstep => (stepCases_registry o u).of_mem_walkSteps hstep) (State.Registry.start false)
  rwa [runSteps_walkSteps] at hrun

/-- The empty name is taken once, like any other name of a container. -/
theorem length_filter_isBlankText_le_one (o : Options) (u : TranslationUnit) :
    ((finalState o u).records.toList.filter fun r => Text.isBlankText r.scriptName).length ≤ 1 := by
  let unnamed := (finalState o u).records.toList.filter fun r => Text.isBlankText r.scriptName
  have hunnamed : ∀ r ∈ unnamed, r.kind = .container ∧ r.scriptName = "" := by
    intro r hmem
    obtain ⟨hr, hblank⟩ := List.mem_filter.mp hmem
    have hkind := ((isBlankText_scriptName_iff hr).mp hblank).1
    exact ⟨hkind, (namedByAlias_of_mem_records hr).scriptName_eq_empty hkind hblank⟩
  have hcontainers : unnamed.Sublist (finalState o u).containerRecords := by
    have hkept := List.filter_sublist (p := fun r => Text.isBlankText r.scriptName)
      (l := (finalState o u).records.toList)
    have hfilter := hkept.filter fun r => r.kind = .container
    rwa [List.filter_eq_self.mpr fun r hr => by simp [(hunnamed r hr).1]] at hfilter
  have hnames : (unnamed.map (·.scriptName)).Nodup :=
    (registry_finalState o u).distinctNames.sublist (hcontainers.map _)
  rw [List.map_congr_left fun r hr => (hunnamed r hr).2, List.map_const',
    List.nodup_replicate] at hnames
  exact hnames

end Analysis

open Analysis

/-- **Script names.** The records of an accepted unit have script names that are not blank, except for
the container, of which there is at most one, that is exported under an alias of blanks only. -/
theorem analyze_scriptName_blank_iff (o : Options) (u : TranslationUnit) (h : u.check o = .ok ()) :
    ∃ exports, analyze o u = .ok exports ∧
      (∀ r ∈ exports.records, Text.isBlankText r.scriptName = true ↔
        r.kind = .container ∧ r.hasBlankAlias = true) ∧
      (exports.records.filter fun r => Text.isBlankText r.scriptName).length ≤ 1 :=
  ⟨_, analyze_of_check h, fun _ hr => isBlankText_scriptName_iff hr,
    length_filter_isBlankText_le_one o u⟩

/-- Of two containers with aliases of blanks only the first has an empty name and the second is
dropped, while a function with such an alias has its own name. -/
theorem analyze_scriptName_blank_iff_aliases :
    let ints := Decl.typeAlias { name := "Ints", annotations := ["lua_export_vector,alias=\" \""] }
      (.template "std::vector" [.builtin "int"])
    let floats := Decl.typeAlias
      { name := "Floats", annotations := ["lua_export_vector,alias=\"\t\""] }
      (.template "std::vector" [.builtin "float"])
    let go := Decl.function { name := "go", annotations := ["lua_export_function,alias=\" \""] } {}
    let u : TranslationUnit := { filePath := "ints.h", decls := [ints, floats, go] }
    u.check {} = .ok () ∧ ∃ exports, analyze {} u = .ok exports ∧
      exports.records.map (fun r => (r.name, r.scriptName, r.hasBlankAlias)) =
        [("Ints", "", true), ("go", "go", true)] ∧
      (∀ r ∈ exports.records, Text.isBlankText r.scriptName = true ↔
        r.kind = .container ∧ r.hasBlankAlias = true) ∧
      (exports.records.filter fun r => Text.isBlankText r.scriptName).length ≤ 1 := by
  intro ints floats go u
  have haccepted : u.check {} = .ok () := TranslationUnit.check_default (by decide) rfl
  obtain ⟨exports, hexports, hblank, hone⟩ := analyze_scriptName_blank_iff {} u haccepted
  refine ⟨haccepted, exports, hexports, ?_, hblank, hone⟩
  obtain rfl := Except.ok.inj ((analyze_of_check haccepted).symm.trans hexports)
  decide

end ScriptExport
