import Mathlib.Data.List.Perm.Subperm
import ScriptExport.Proofs.Analysis.Occurrences

/-!
# The registry of containers

The state keeps two lists beside the records: the script names that containers have taken, and the
instantiations that were exported without an alias. `State.Registry` says that they are exactly what
the container records show, that no two containers share a script name, and that no instantiation is
exported twice without an alias. Only a container that enters the result changes any of the three, and
it does so at once; every other step leaves them alone. The name of such a container is free either
because it was looked up or because `Counter.freshName` has searched for it.
-/

namespace ScriptExport

/-! ## Fresh names -/

namespace Counter

theorem append_toString_inj {name : String} {i j : Nat}
    (h : name ++ toString i = name ++ toString j) : i = j := by
  have hchars := congrArg String.toList h
  simp only [String.toList_append] at hchars
  have hdigits := List.append_cancel_left hchars
  have hvalues := congrArg (fun ds => Nat.ofDigitChars 10 ds 0) hdigits
  simpa [Nat.toString_eq_ofList_toDigits] using hvalues

variable {taken : List String} {name : String}

/-- If the search ends at a name that is taken, all numbers on the way were. -/
theorem mem_of_search_mem {tries n : Nat}
    (h : name ++ toString (search taken name tries n) ∈ taken) :
    ∀ i ≤ tries, name ++ toString (n + i) ∈ taken := by
  induction tries generalizing n with
  | zero =>
    intro i hi
    obtain rfl : i = 0 := by omega
    exact h
  | succ tries ih =>
    rw [search] at h
    by_cases hn : name ++ toString n ∈ taken
    · rw [if_pos hn] at h
      intro i hi
      cases i with
      | zero => exact hn
      | succ i =>
        have hlater := ih h i (by omega)
        rwa [Nat.add_right_comm] at hlater
    · rw [if_neg hn] at h
      exact absurd h hn

/-- There are no more numbered names in a list than the list has items. -/
theorem length_of_numbered {count n : Nat} (h : ∀ i < count, name ++ toString (n + i) ∈ taken) :
    count ≤ taken.length := by
  have hnodup : ((List.range count).map fun i => name ++ toString (n + i)).Nodup := by
    refine List.Nodup.map ?_ List.nodup_range
    intro i j hij
    have hsum := append_toString_inj hij
    omega
  have hsubset : ((List.range count).map fun i => name ++ toString (n + i)) ⊆ taken := by
    intro candidate hcandidate
    obtain ⟨i, hi, rfl⟩ := List.mem_map.mp hcandidate
    exact h i (List.mem_range.mp hi)
  have hlength := (hnodup.subperm hsubset).length_le
  simpa using hlength

/-- One of the next numbers is free. -/
theorem search_not_mem (taken : List String) (name : String) (n : Nat) :
    name ++ toString (search taken name taken.length n) ∉ taken := by
  intro hmem
  have hall := mem_of_search_mem hmem
  have hlength : taken.length + 1 ≤ taken.length :=
    length_of_numbered fun i hi => hall i (by omega)
  omega

/-- A fresh name is not taken. -/
theorem freshName_not_mem (taken : List String) (name : String) (c : Counter) :
    (c.freshName taken name).1 ∉ taken := by
  unfold freshName
  split
  · exact search_not_mem taken name _
  · assumption

end Counter

/-! ## Container records -/

/-- Whether the record shows an alias, as that of a container exported under one does. -/
def ExportRecord.hasAlias (r : ExportRecord) : Bool :=
  (r.attribute? "alias").any fun name => !name.isEmpty

theorem ExportRecord.hasAlias_eq {r : ExportRecord} {a : Directive}
    (h : r.attributes = a.attributes) : r.hasAlias = a.scriptAlias?.isSome := by
  unfold ExportRecord.hasAlias ExportRecord.attribute? Directive.scriptAlias? Directive.attribute?
  rw [h, Option.isSome_filter]

/-- The record is that of a type alias as a container. Without an alias it is known by the canonical
text of the instantiated type. -/
structure ExportRecord.IsContainerOf (r : ExportRecord) (h : Header) (target : TypeRef)
    (a : Directive) : Prop where
  name : r.name = h.name
  location : r.location = h.location
  attributes : r.attributes = a.attributes
  qualifiedName : r.hasAlias = false → r.qualifiedName = target.canonical.text

namespace Analysis

namespace State

/-- The records of containers, in order. -/
def containerRecords (s : State) : List ExportRecord :=
  s.records.toList.filter fun r => r.kind = .container

/-- What holds of containers at every point. Each container record has an origin `O`. -/
structure Registry (O : ExportRecord → Prop) (s : State) : Prop where
  /-- The taken names are the script names of the container records. -/
  names : ∀ n, n ∈ s.containerNames ↔ ∃ r ∈ s.containerRecords, r.scriptName = n
  distinctNames : (s.containerRecords.map (·.scriptName)).Nodup
  /-- The exported instantiations are the qualified names of the containers without an alias. -/
  instantiations : ∀ q, q ∈ s.containers ↔
    ∃ r ∈ s.containerRecords, r.hasAlias = false ∧ r.qualifiedName = q
  distinctInstantiations :
    ((s.containerRecords.filter fun r => !r.hasAlias).map (·.qualifiedName)).Nodup
  origins : ∀ r ∈ s.containerRecords, O r

/-- The states have the same containers. -/
structure SameContainers (s t : State) : Prop where
  records : t.containerRecords = s.containerRecords
  containers : t.containers = s.containers
  containerNames : t.containerNames = s.containerNames

theorem containerRecords_push {s : State} (r : ExportRecord) :
    (s.push r).containerRecords =
      s.containerRecords ++ if r.kind = .container then [r] else [] := by
  unfold containerRecords
  simp only [push, log, note, Array.toList_push, List.filter_append]
  by_cases hr : r.kind = .container <;> simp [hr]

namespace SameContainers

variable {s t u : State}

theorem refl : s.SameContainers s := ⟨rfl, rfl, rfl⟩

theorem trans (h : s.SameContainers t) (h' : t.SameContainers u) : s.SameContainers u :=
  ⟨h'.records.trans h.records, h'.containers.trans h.containers,
    h'.containerNames.trans h.containerNames⟩

/-- Changes that concern no container leave the containers alone. -/
theorem of_changes (h : s.Changes (fun r => r.kind ≠ .container) t) : s.SameContainers t := by
  induction h with
  | refl => exact .refl
  | tail _ change ih =>
    refine ih.trans ?_
    cases change with
    | note step => exact ⟨rfl, rfl, rfl⟩
    | report d => exact ⟨rfl, rfl, rfl⟩
    | push r hr admitted => exact ⟨by simp [containerRecords_push, hr], rfl, rfl⟩
    | constants m => exact ⟨rfl, rfl, rfl⟩
    | counter c => exact ⟨rfl, rfl, rfl⟩
    | register r hr hkind instantiation => exact absurd hkind hr

end SameContainers

namespace Registry

variable {O : ExportRecord → Prop} {s t : State}

/-- The empty state has an empty registry. -/
theorem start (traced : Bool) : (State.start traced).Registry O where
  names _ := ⟨fun h => (by cases h), fun ⟨_, hr, _⟩ => (by cases hr)⟩
  distinctNames := List.nodup_nil
  instantiations _ := ⟨fun h => (by cases h), fun ⟨_, hr, _⟩ => (by cases hr)⟩
  distinctInstantiations := List.nodup_nil
  origins _ hr := by cases hr

theorem of_same (hs : s.Registry O) (h : s.SameContainers t) : t.Registry O where
  names := h.records ▸ h.containerNames ▸ hs.names
  distinctNames := h.records ▸ hs.distinctNames
  instantiations := h.records ▸ h.containers ▸ hs.instantiations
  distinctInstantiations := h.records ▸ hs.distinctInstantiations
  origins := h.records ▸ hs.origins

/-- A container under a free name takes the name, and its instantiation if it has no alias. -/
theorem emitContainer (hs : s.Registry O) {r : ExportRecord} (hr : O r)
    (hkind : r.kind = .container) (hname : r.scriptName ∉ s.containerNames)
    {instantiation : Option String}
    (hinstantiation : instantiation = if r.hasAlias then none else some r.qualifiedName)
    (hnew : r.hasAlias = false → r.qualifiedName ∉ s.containers) :
    (s.emitContainer r instantiation).Registry O := by
  unfold State.emitContainer
  cases hadmits : s.admits r with
  | false =>
    -- an invalid record is reported and a known one collapses
    have hout : s.SameContainers (s.emit r) := by
      unfold State.admits at hadmits
      unfold State.emit
      cases hvalid : r.isValid with
      | false => exact ⟨rfl, rfl, rfl⟩
      | true =>
        have hknown : r.identity ∈ s.identities := by simpa [hvalid] using hadmits
        simp only [Bool.not_true, Bool.false_eq_true, ↓reduceIte, hknown]
        exact .refl
    rw [if_neg Bool.false_ne_true]
    exact hs.of_same hout
  | true =>
    have hemit : s.emit r = s.push r := by
      obtain ⟨hvalid, hfresh⟩ := Bool.and_eq_true_iff.mp hadmits
      simp [State.emit, hvalid, of_decide_eq_true hfresh]
    have hrecords : (s.push r).containerRecords = s.containerRecords ++ [r] := by
      rw [containerRecords_push, if_pos hkind]
    rw [if_pos rfl, hemit]
    constructor
    case names =>
      intro n
      show n ∈ r.scriptName :: s.containerNames ↔ ∃ r' ∈ (s.push r).containerRecords, _
      rw [hrecords, List.mem_cons, hs.names]
      simp only [List.mem_append, List.mem_singleton, or_and_right, exists_or, exists_eq_left]
      exact or_comm.trans (or_congr_right eq_comm)
    case distinctNames =>
      show ((s.push r).containerRecords.map _).Nodup
      rw [hrecords, List.map_append, List.nodup_append]
      refine ⟨hs.distinctNames, by simp, ?_⟩
      intro n hn m hm hnm
      obtain ⟨r', hr', rfl⟩ := List.mem_map.mp hn
      obtain rfl : m = r.scriptName := by simpa using hm
      exact hname ((hs.names _).mpr ⟨r', hr', hnm⟩)
    case instantiations =>
      intro q
      show q ∈ instantiation.toList ++ s.containers ↔ ∃ r' ∈ (s.push r).containerRecords, _
      rw [hrecords, List.mem_append, hs.instantiations, hinstantiation]
      cases halias : r.hasAlias with
      | true => simp [halias, or_and_right, exists_or]
      | false =>
        simp only [List.mem_append, List.mem_singleton, or_and_right, exists_or, exists_eq_left,
          halias, Bool.false_eq_true, ↓reduceIte, Option.toList_some, true_and]
        exact or_comm.trans (or_congr_right eq_comm)
    case distinctInstantiations =>
      show (((s.push r).containerRecords.filter _).map _).Nodup
      rw [hrecords, List.filter_append, List.map_append]
      cases halias : r.hasAlias with
      | true => simpa [halias] using hs.distinctInstantiations
      | false =>
        rw [List.nodup_append]
        refine ⟨hs.distinctInstantiations, by simp [halias], ?_⟩
        intro q hq m hm hqm
        obtain ⟨r', hr', rfl⟩ := List.mem_map.mp hq
        obtain ⟨hmem, hplain⟩ := List.mem_filter.mp hr'
        obtain rfl : m = r.qualifiedName := by simpa [halias] using hm
        exact hnew halias ((hs.instantiations _).mpr ⟨r', hmem, by simpa using hplain, hqm⟩)
    case origins =>
      intro r' hr'
      have hmem : r' ∈ s.containerRecords ++ [r] := hrecords ▸ hr'
      rcases List.mem_append.mp hmem with hr' | hr'
      · exact hs.origins r' hr'
      · rw [List.mem_singleton.mp hr']
        exact hr

end Registry

end State

/-! ## Steps -/

section Leaves

variable {O : ExportRecord → Prop} {s : State} (hs : s.Registry O) {ctx : Context} {h : Header}
  {a : Directive}

include hs

/-- A view keeps the registry in order. -/
theorem registry_exportView {name : String} {kind : ContainerKind} {elements : List TypeRef}
    {instantiation : String} (halias : a.scriptAlias?.isSome = true)
    (hO : O (ctx.containerRecord h a name kind elements)) :
    (exportView ctx h a name kind elements instantiation s).Registry O := by
  unfold exportView
  split
  · exact hs.of_same (.of_changes (changes_report s _))
  · next hfree =>
    have hused := State.SameContainers.of_changes (changes_useTypes s h elements)
    have hview : (ctx.containerRecord h a name kind elements).hasAlias = true :=
      (ExportRecord.hasAlias_eq rfl).trans halias
    refine (hs.of_same hused).emitContainer hO rfl ?_ (by rw [hview]; rfl) ?_
    · rw [hused.containerNames]
      exact hfree
    · intro hplain
      rw [hview] at hplain
      cases hplain

omit hs in
theorem uniqueContainerName_not_mem (s : State) (h : Header) (generated instantiation : String) :
    (s.uniqueContainerName h generated instantiation).1 ∉ s.containerNames := by
  unfold State.uniqueContainerName
  split
  · exact Counter.freshName_not_mem _ _ _
  · assumption

/-- An instantiation keeps the registry in order. -/
theorem registry_exportInstantiation {kind : ContainerKind} {elements : List TypeRef}
    {instantiation : String} (halias : a.scriptAlias? = none)
    (hO : ∀ name, O { ctx.containerRecord h a name kind elements with
      qualifiedName := instantiation }) :
    (exportInstantiation ctx h a kind elements instantiation s).Registry O := by
  unfold exportInstantiation
  split
  · exact hs.of_same (.of_changes (changes_report s _))
  · next hfresh =>
    have hnamed := State.SameContainers.of_changes ((changes_uniqueContainerName s h
      (Naming.containerName ctx.options.containers kind elements) instantiation).trans
        (changes_useTypes _ h elements))
    have hplain : ∀ name, ({ ctx.containerRecord h a name kind elements with
        qualifiedName := instantiation } : ExportRecord).hasAlias = false := by
      intro name
      rw [ExportRecord.hasAlias_eq (a := a) rfl, halias]
      rfl
    refine (hs.of_same hnamed).emitContainer (hO _) rfl ?_ (by rw [hplain]; rfl) ?_
    · rw [hnamed.containerNames]
      exact uniqueContainerName_not_mem s h _ _
    · intro _
      rw [hnamed.containers]
      exact hfresh

/-- A container keeps the registry in order. -/
theorem registry_exportContainer {target : TypeRef} {expected : ContainerKind}
    (hO : ∀ r : ExportRecord, r.IsContainerOf h target a → O r) :
    (exportContainer ctx h target a expected s).Registry O := by
  unfold exportContainer
  split
  · exact hs.of_same (.of_changes (changes_report s _))
  · next detected arguments _ =>
    have hbegin := State.SameContainers.of_changes ((changes_reportAll s
      (containerShape h expected a.kind.name detected arguments).2).trans
        (changes_useType _ h target))
    dsimp only
    cases halias : a.scriptAlias? with
    | some name =>
      refine registry_exportView (hs.of_same hbegin) (by rw [halias]; rfl) (hO _ ?_)
      refine ⟨rfl, rfl, rfl, fun hplain => ?_⟩
      rw [ExportRecord.hasAlias_eq (a := a) rfl, halias] at hplain
      cases hplain
    | none =>
      exact registry_exportInstantiation (hs.of_same hbegin) halias fun name =>
        hO _ ⟨rfl, rfl, rfl, fun _ => rfl⟩

omit h in
/-- A leaf keeps the registry in order. -/
theorem registry_exportLeaf {d : Decl}
    (hO : ∀ (h : Header) (target : TypeRef) (r : ExportRecord), d = .typeAlias h target →
      r.IsContainerOf h target a → O r) : (exportLeaf ctx d a s).Registry O := by
  have hplain : ∀ r : ExportRecord, r.kind.isPlain = true → r.kind ≠ .container := by
    intro r hr hkind
    rw [hkind] at hr
    cases hr
  cases d with
  | function h c => exact hs.of_same (.of_changes (changes_exportFunction hplain s ctx h c a))
  | var h info => exact hs.of_same (.of_changes (changes_exportVariable hplain s ctx h info a))
  | enumeration h info => exact hs.of_same (.of_changes (changes_exportEnum hplain s ctx h info a))
  | typeAlias h target =>
    have hcontainer : ∀ r : ExportRecord, r.IsContainerOf h target a → O r :=
      fun r hr => hO h target r rfl hr
    unfold exportLeaf exportAlias
    dsimp only
    split
    · exact hs.of_same (.of_changes (changes_exportCallback hplain s ctx h target a))
    · exact registry_exportContainer hs hcontainer
    · exact registry_exportContainer hs hcontainer
    · exact hs
  | _ => exact hs

end Leaves

/-- Where a container record of a unit comes from: a type alias and its directive. -/
def ContainerOrigin (o : Options) (u : TranslationUnit) (r : ExportRecord) : Prop :=
  ∃ p ∈ occurrences [] u.decls, ∃ h target a, p.decl = .typeAlias h target ∧
    (parseAnnotations o.marker h.annotations).directive = some a ∧ r.IsContainerOf h target a

/-- The containers of a visited alias come from it. -/
theorem containerOrigin_of_visit {o : Options} {u : TranslationUnit} {v : Visit}
    (hv : v ∈ visits (Context.ofUnit o u) u.decls) {h : Header} {target : TypeRef} {a : Directive}
    (hdecl : v.decl = .typeAlias h target) (ha : v.verdict.directive = some a) {r : ExportRecord}
    (hr : r.IsContainerOf h target a) : ContainerOrigin o u r := by
  have hvisits : visits ((Context.ofUnit o u).within []) u.decls =
      (occurrences [] u.decls).filterMap (·.visit? (Context.ofUnit o u)) :=
    visits_eq_filterMap [] rfl u.decls
  have hmem : v ∈ visits ((Context.ofUnit o u).within []) u.decls := hv
  rw [hvisits] at hmem
  obtain ⟨p, hp, hvisit⟩ := List.mem_filterMap.mp hmem
  unfold Occurrence.visit? at hvisit
  split at hvisit
  · cases hvisit
  · cases hvisit
    obtain ⟨hparsed, -⟩ := directive_of_verdict ha
    rw [options_within, hdecl] at hparsed
    exact ⟨p, hp, h, target, a, hdecl, hparsed, hr⟩

/-- Every step of a walk keeps the registry. -/
theorem stepCases_registry (o : Options) (u : TranslationUnit) :
    StepCases (visits (Context.ofUnit o u) u.decls) fun step =>
      ∀ x : Surface, x.state.Registry (ContainerOrigin o u) →
        (step x).state.Registry (ContainerOrigin o u) where
  visit v _ x hx := hx.of_same (.of_changes (changes_visit x.state v.ctx v.decl))
  visitMember marker d x hx := hx.of_same (.of_changes (changes_visitMember x.state marker d))
  report d x hx := hx.of_same (.of_changes (changes_report x.state d))
  emit r hr x hx := hx.of_same (.of_changes (changes_emit x.state hr))
  leaf v hv a ha x hx := registry_exportLeaf hx fun h target r hdecl hr =>
    containerOrigin_of_visit hv hdecl ha hr
  restart x hx := hx
  slot ctx owner source m slot x hx := by
    refine hx.of_same (.of_changes (changes_addSlot ?_ x ctx owner source m slot))
    intro r hr hkind
    rw [hkind] at hr
    cases hr

theorem registry_runSteps {O : ExportRecord → Prop} {steps : List Step}
    (hsteps : ∀ step ∈ steps, ∀ x : Surface, x.state.Registry O → (step x).state.Registry O)
    {x : Surface} (hx : x.state.Registry O) : (runSteps steps x).state.Registry O := by
  induction steps generalizing x with
  | nil => exact hx
  | cons step steps ih =>
    refine ih ?_ (hsteps step List.mem_cons_self x hx)
    intro other hother
    exact hsteps other (List.mem_cons_of_mem step hother)

end Analysis

open Analysis

/-- **The container registry.** At every point of the analysis of an accepted unit, the taken names
are the script names of the container records, which are distinct, and the exported instantiations
are the qualified names of the container records without an alias, which are distinct canonical texts
of the instantiated types. -/
theorem points_registry (o : Options) (traced : Bool) (u : TranslationUnit)
    (h : u.check o = .ok ()) :
    let steps := walkSteps (Context.ofUnit o u) u.decls
    let point := fun done => (runSteps done (.ofUnit traced u)).state
    ∃ result, analyzeTraced o traced u = .ok result ∧
      result.exports.records = (point steps).records.toList ∧
      ∀ done rest, steps = done ++ rest → (point done).Registry (ContainerOrigin o u) := by
  intro steps point
  refine ⟨(run o traced u).result u.filePath, ?_, ?_, ?_⟩
  · unfold analyzeTraced
    rw [h]
    rfl
  · exact congrArg Array.toList (records_run o traced u)
  · intro done rest hsteps
    have hstart : (Surface.ofUnit traced u).state.Registry (ContainerOrigin o u) :=
      (State.Registry.start traced).of_same (.of_changes (changes_log _ _))
    refine registry_runSteps (fun step hstep => ?_) hstart
    have hmem : step ∈ walkSteps (Context.ofUnit o u) u.decls := by
      rw [show walkSteps (Context.ofUnit o u) u.decls = done ++ rest from hsteps]
      exact List.mem_append_left rest hstep
    exact (stepCases_registry o u).of_mem_walkSteps hmem

/-- An alias that takes the name which is generated for the container after it. -/
theorem points_registry_taken_name :
    let floats := Decl.typeAlias
      { name := "Floats", annotations := ["lua_export_vector,alias=IntVector"] }
      (.template "std::vector" [.builtin "float"])
    let ints := Decl.typeAlias { name := "Ints", annotations := ["lua_export_vector"] }
      (.template "std::vector" [.builtin "int"])
    let u : TranslationUnit := { filePath := "ints.h", decls := [floats, ints] }
    let steps := walkSteps (Context.ofUnit {} u) u.decls
    let point := fun done => (runSteps done (.ofUnit false u)).state
    u.check {} = .ok () ∧ (point steps).containerNames = ["IntVector2", "IntVector"] ∧
      (point steps).Registry (ContainerOrigin {} u) ∧
      (point (steps.take 2)).containerNames = ["IntVector"] ∧
      (point (steps.take 2)).Registry (ContainerOrigin {} u) := by
  intro floats ints u steps point
  have haccepted : u.check {} = .ok () := TranslationUnit.check_default (by decide) rfl
  obtain ⟨result, -, -, hpoints⟩ := points_registry {} false u haccepted
  refine ⟨haccepted, by decide, ?_, by decide, ?_⟩
  · exact hpoints steps [] (List.append_nil _).symm
  · exact hpoints _ _ (List.take_append_drop 2 _).symm

end ScriptExport
