import ScriptExport.Proofs.Analysis.Acceptance
import ScriptExport.Proofs.Analysis.Changes
import ScriptExport.Proofs.Analysis.Outline

/-!
# Forward declarations

A record declaration without annotations, bases and members only says that a type exists. The walk
makes nothing of it, but the type index does: the first declaration of a type decides its script
name and its scope, and also its bases as long as no declaration of it has members. So whether a
forward declaration can be left out depends on the next declaration of the type that is indexed
(`Redundant`): it must have the same script name, and its bases must not have been hidden.
-/

namespace ScriptExport

/-! ## Lists inside namespaces -/

/-- A namespace with what stands before and after it. -/
structure Frame where
  header : Header
  before : List Decl := []
  after : List Decl := []

/-- The declarations around a list that stands in nested namespaces, outermost first. -/
def plug : List Frame → List Decl → List Decl
  | [], ds => ds
  | f :: fs, ds => f.before ++ .nameSpace f.header (plug fs ds) :: f.after

/-- The names of nested namespaces. -/
def framePath (fs : List Frame) : List String :=
  fs.map fun f => scopeName f.header.name

namespace TypeIndex

/-- The entries of what stands before the innermost list. -/
def entriesBefore (o : Options) (scope : List String) : List Frame → List TypeEntry
  | [] => []
  | f :: fs => indexed o scope f.before ++ entriesBefore o (scope ++ [scopeName f.header.name]) fs

/-- The entries of what stands after the innermost list. -/
def entriesAfter (o : Options) (scope : List String) : List Frame → List TypeEntry
  | [] => []
  | f :: fs => entriesAfter o (scope ++ [scopeName f.header.name]) fs ++ indexed o scope f.after

/-- What surrounds a list stands before and behind its types. -/
theorem indexed_plug (o : Options) (scope : List String) (fs : List Frame) (ds : List Decl) :
    indexed o scope (plug fs ds) =
      entriesBefore o scope fs ++ indexed o (scope ++ framePath fs) ds
        ++ entriesAfter o scope fs := by
  induction fs generalizing scope with
  | nil => simp [plug, entriesBefore, entriesAfter, framePath]
  | cons f fs ih =>
    have hpath : scope ++ framePath (f :: fs) =
        scope ++ [scopeName f.header.name] ++ framePath fs := by
      simp [framePath]
    rw [plug, indexed_append, indexed, indexedOf, ih, entriesBefore, entriesAfter, hpath]
    simp only [List.append_assoc]

/-! ## Entries that add nothing -/

/-- An entry without members or directive changes nothing behind another entry of its type. -/
theorem merged_append_cons {first f : TypeEntry} {l l' : List TypeEntry} (ha : f.annotated = false)
    (hm : f.decl.children = []) : first.merged (l ++ f :: l') = first.merged (l ++ l') := by
  unfold TypeEntry.merged
  simp [ha, hm, List.find?_append, List.find?_cons]

/-- Whether nothing is lost without the entry `f` of a type: an earlier entry of the type counts
before it, or the next one has the same script name and scope and, unless a later entry has members,
also the same simple name and bases. -/
def Redundant (before : List TypeEntry) (f : TypeEntry) (after : List TypeEntry) : Prop :=
  (∃ e ∈ before, e.qualifiedName = f.qualifiedName) ∨
    ∃ next rest, after.filter (fun e => e.qualifiedName == f.qualifiedName) = next :: rest ∧
      next.scriptName = f.scriptName ∧ next.scope = f.scope ∧
      ((∃ e ∈ next :: rest, e.decl.children ≠ []) ∨
        next.decl.name = f.decl.name ∧ next.decl.bases = f.decl.bases)

section Entry

variable {f : TypeEntry} (ha : f.annotated = false) (hm : f.decl.children = [])
include ha hm

theorem outline_merged_eq_iff {next : TypeEntry} (hq : next.qualifiedName = f.qualifiedName)
    (rest : List TypeEntry) :
    (f.merged (next :: rest)).outline = (next.merged rest).outline ↔
      next.scriptName = f.scriptName ∧ next.scope = f.scope ∧
        ((∃ e ∈ next :: rest, e.decl.children ≠ []) ∨
          next.decl.name = f.decl.name ∧ next.decl.bases = f.decl.bases) := by
  have hskip : ((f :: next :: rest).map (·.decl)).find? (fun d => !d.children.isEmpty) =
      ((next :: rest).map (·.decl)).find? (fun d => !d.children.isEmpty) := by
    rw [List.map_cons, List.find?_cons_of_neg (by simp [hm])]
  unfold TypeEntry.merged TypeEntry.outline
  rw [hskip]
  cases hfound : ((next :: rest).map (·.decl)).find? (fun d => !d.children.isEmpty) with
  | some d =>
    obtain ⟨e, he, rfl⟩ := List.mem_map.mp (List.mem_of_find?_eq_some hfound)
    have hmembers : e.decl.children ≠ [] := by simpa using List.find?_some hfound
    have hexists : ∃ e ∈ next :: rest, e.decl.children ≠ [] := ⟨e, he, hmembers⟩
    simp only [hexists, true_or, and_true, TypeOutline.mk.injEq, ha, hq, Bool.false_or,
      List.any_cons, Option.getD_some, true_and]
    exact and_congr eq_comm eq_comm
  | none =>
    have hnone : ∀ e ∈ next :: rest, e.decl.children = [] := fun e he => by
      have := List.find?_eq_none.mp hfound e.decl (List.mem_map_of_mem he)
      simpa using this
    have hexists : ¬ ∃ e ∈ next :: rest, e.decl.children ≠ [] := fun ⟨e, he, hne⟩ =>
      hne (hnone e he)
    simp only [hexists, false_or, and_true, TypeOutline.mk.injEq, ha, hq, Bool.false_or,
      List.any_cons, Option.getD_none, true_and, hm, hnone next List.mem_cons_self]
    exact and_congr eq_comm (and_congr eq_comm (and_congr eq_comm eq_comm))

/-- Without an entry that has neither members nor a directive, the types are the same exactly if the
entry is redundant. -/
theorem sameTypes_iff_redundant (before after : List TypeEntry) :
    SameTypes ⟨declareAll (before ++ f :: after) []⟩ ⟨declareAll (before ++ after) []⟩ ↔
      Redundant before f after := by
  have hother : ∀ q, ¬ f.qualifiedName = q →
      find? ⟨declareAll (before ++ f :: after) []⟩ q =
        find? ⟨declareAll (before ++ after) []⟩ q := by
    intro q hq
    rw [find?_declareAll_nil, find?_declareAll_nil, List.filter_append, List.filter_append,
      List.filter_cons_of_neg (by simpa using hq)]
  have hsame : SameTypes ⟨declareAll (before ++ f :: after) []⟩ ⟨declareAll (before ++ after) []⟩ ↔
      (find? ⟨declareAll (before ++ f :: after) []⟩ f.qualifiedName).map (·.outline) =
        (find? ⟨declareAll (before ++ after) []⟩ f.qualifiedName).map (·.outline) := by
    refine ⟨fun h => h _, fun h q => ?_⟩
    by_cases hq : f.qualifiedName = q
    · exact hq ▸ h
    · rw [hother q hq]
  rw [hsame, find?_declareAll_nil, find?_declareAll_nil, List.filter_append, List.filter_append,
    List.filter_cons_of_pos (by simp)]
  unfold Redundant
  cases hbefore : before.filter (fun e => e.qualifiedName == f.qualifiedName) with
  | cons first earlier =>
    have hmem : first ∈ before.filter (fun e => e.qualifiedName == f.qualifiedName) := by
      rw [hbefore]; exact List.mem_cons_self
    obtain ⟨hfirst, hname⟩ := List.mem_filter.mp hmem
    have hexists : ∃ e ∈ before, e.qualifiedName = f.qualifiedName :=
      ⟨first, hfirst, by simpa using hname⟩
    simp only [List.cons_append, merged_append_cons ha hm, hexists, true_or]
  | nil =>
    have hnone : ¬ ∃ e ∈ before, e.qualifiedName = f.qualifiedName := by
      rintro ⟨e, he, hq⟩
      exact absurd (by simpa using hq) (List.filter_eq_nil_iff.mp hbefore e he)
    simp only [List.nil_append, hnone, false_or]
    cases hafter : after.filter (fun e => e.qualifiedName == f.qualifiedName) with
    | nil => simp
    | cons next rest =>
      have hmem : next ∈ after.filter (fun e => e.qualifiedName == f.qualifiedName) := by
        rw [hafter]; exact List.mem_cons_self
      have hq : next.qualifiedName = f.qualifiedName := by
        simpa using (List.mem_filter.mp hmem).2
      rw [Option.map_some, Option.map_some, Option.some_inj, outline_merged_eq_iff ha hm hq]
      constructor
      · exact fun h => ⟨next, rest, rfl, h⟩
      · rintro ⟨_, _, heq, h⟩
        obtain ⟨rfl, rfl⟩ := List.cons.inj heq
        exact h

end Entry

end TypeIndex

/-! ## What the walk makes of it -/

/-- A record declaration with nothing in it. -/
def forward (h : Header) : Decl :=
  .record h {} []

theorem parseAnnotations_forward {h : Header} (hannotations : h.annotations = [])
    (marker : String) : parseAnnotations marker (forward h).annotations = {} := by
  unfold Decl.annotations forward Decl.header
  rw [hannotations]
  rfl

namespace Analysis

/-- A forward declaration leaves an untraced state as it is. -/
theorem visit_forward {h : Header} (hannotations : h.annotations = []) (ctx : Context) {s : State}
    (hs : s.trace = none) : visit ctx (forward h) s = s := by
  have hverdict : (ctx.verdict (forward h)).directive = none ∧
      ctx.verdict (forward h) ≠ .ignored ∧ s.visit ctx (forward h) = s := by
    unfold State.visit Context.verdict
    rw [parseAnnotations_forward hannotations]
    have hvisited : (s.log (.visited (forward h).kindText (forward h).name)).reportAll
        (issueDiagnostics (forward h).header []) = s := State.note_eq_self hs _
    simp only [Bool.false_eq_true, ↓reduceIte]
    rw [hvisited]
    cases ctx.options.skipReason? (forward h) false ctx.scopes.inExport with
    | none => exact ⟨rfl, by simp, rfl⟩
    | some reason => exact ⟨rfl, by simp, State.note_eq_self hs _⟩
  obtain ⟨hdirective, hkept, hvisit⟩ := hverdict
  unfold forward at hdirective hkept hvisit ⊢
  rw [visit, hvisit, if_neg hkept, hdirective]
  rfl

/-- The lists make no difference to untraced walks. -/
def WalkAlike (ds es : List Decl) : Prop :=
  ∀ (ctx : Context) (s : State), s.trace = none → walk ctx ds s = walk ctx es s

theorem walk_append (ctx : Context) (ds es : List Decl) (s : State) :
    walk ctx (ds ++ es) s = walk ctx es (walk ctx ds s) := by
  rw [walk_eq_runVisits, walk_eq_runVisits, walk_eq_runVisits, visits_append, runVisits_append]

theorem trace_walk {ctx : Context} {ds : List Decl} {s : State} (hs : s.trace = none) :
    (walk ctx ds s).trace = none := by
  rw [walk_eq_runVisits]
  exact (changes_runVisits _ _).trace_eq_none hs

/-- Lists that are walked alike are so inside a namespace. -/
theorem WalkAlike.visit_nameSpace {ds es : List Decl} (h : WalkAlike ds es) (head : Header)
    (ctx : Context) {s : State} (hs : s.trace = none) :
    visit ctx (.nameSpace head ds) s = visit ctx (.nameSpace head es) s := by
  have hverdict : ctx.verdict (.nameSpace head ds) = ctx.verdict (.nameSpace head es) := rfl
  have hvisit : s.visit ctx (.nameSpace head ds) = s.visit ctx (.nameSpace head es) := rfl
  have hvisited : (s.visit ctx (.nameSpace head es)).trace = none :=
    (changes_visit (P := fun _ => False) s ctx _).trace_eq_none hs
  rw [visit, visit, hverdict, hvisit]
  by_cases hi : ctx.verdict (.nameSpace head es) = .ignored
  · rw [if_pos hi, if_pos hi]
  · rw [if_neg hi, if_neg hi]
    refine h _ _ ?_
    cases (ctx.verdict (.nameSpace head es)).directive with
    | none => exact hvisited
    | some a => exact (changes_emit (P := fun _ => True) _ trivial).trace_eq_none hvisited

theorem WalkAlike.plug {ds es : List Decl} (h : WalkAlike ds es) (fs : List Frame) :
    WalkAlike (plug fs ds) (plug fs es) := by
  induction fs with
  | nil => exact h
  | cons f fs ih =>
    intro ctx s hs
    rw [ScriptExport.plug, ScriptExport.plug, walk_append, walk_append, walk, walk]
    simp only [Decl.isMemberOnly, Bool.false_eq_true, ↓reduceIte]
    rw [ih.visit_nameSpace f.header ctx (trace_walk hs)]

/-- A plain forward declaration changes no walk. -/
theorem walkAlike_forward {h : Header} (hannotations : h.annotations = [])
    (before after : List Decl) : WalkAlike (before ++ forward h :: after) (before ++ after) := by
  intro ctx s hs
  have hmember : (forward h).isMemberOnly = false := rfl
  rw [walk_append, walk_append, walk, hmember]
  simp only [Bool.false_eq_true, ↓reduceIte]
  rw [visit_forward hannotations ctx (trace_walk hs)]

end Analysis

/-! ## Units without it -/

/-- A list inside namespaces stays accepted if declarations are left out. -/
theorem Structure.checkDecls_plug {file : String} {inRecord : Bool} {depth : Nat}
    {ds es : List Decl} (hsub : es ⊆ ds) (fs : List Frame)
    (h : checkDecls file inRecord depth (plug fs ds) = .ok ()) :
    checkDecls file inRecord depth (plug fs es) = .ok () := by
  induction fs generalizing inRecord depth with
  | nil => exact checkDecls_eq_ok_iff.mpr fun d hd => checkDecls_eq_ok_iff.mp h d (hsub hd)
  | cons f fs ih =>
    refine checkDecls_replace h fun hscope => ?_
    obtain ⟨hdepth, hinner⟩ := checkDecl_nameSpace_eq_ok_iff.mp hscope
    exact checkDecl_nameSpace_eq_ok_iff.mpr ⟨hdepth, ih hinner⟩

theorem TypeIndex.entryOf?_forward {o : Options} {scope : List String} {h : Header} {e : TypeEntry}
    (hannotations : h.annotations = []) (he : entryOf? o scope (forward h) = some e) :
    e.annotated = false ∧ e.decl = forward h := by
  unfold entryOf? at he
  rw [parseAnnotations_forward hannotations] at he
  dsimp only at he
  split at he
  · cases he
  · cases he
    exact ⟨rfl, rfl⟩

/-- Whether the types of a unit are the same without a forward declaration. -/
theorem TypeIndex.sameTypes_forward_iff (o : Options) (fs : List Frame) (pre post : List Decl)
    {h : Header} (hannotations : h.annotations = []) :
    (ofDecls o (plug fs (pre ++ forward h :: post))).SameTypes (ofDecls o (plug fs (pre ++ post))) ↔
      ∀ e, entryOf? o (framePath fs) (forward h) = some e →
        Redundant (entriesBefore o [] fs ++ indexed o (framePath fs) pre) e
          (indexed o (framePath fs) post ++ entriesAfter o [] fs) := by
  have hindexed : indexedOf o (framePath fs) (forward h) =
      (entryOf? o (framePath fs) (forward h)).toList := List.append_nil _
  rw [ofDecls_eq, ofDecls_eq, indexed_plug, indexed_plug, List.nil_append, indexed_append,
    indexed_append, indexed, hindexed]
  cases he : entryOf? o (framePath fs) (forward h) with
  | none => simp [SameTypes]
  | some e =>
    obtain ⟨hannotated, hdecl⟩ := entryOf?_forward hannotations he
    have hmembers : e.decl.children = [] := by rw [hdecl]; rfl
    have hiff := sameTypes_iff_redundant hannotated hmembers
      (entriesBefore o [] fs ++ indexed o (framePath fs) pre)
      (indexed o (framePath fs) post ++ entriesAfter o [] fs)
    simp only [Option.toList_some, List.append_assoc, List.cons_append, List.nil_append] at hiff ⊢
    rw [hiff]
    exact ⟨fun hr e' he' => Option.some.inj he' ▸ hr, fun hr => hr e rfl⟩

open Analysis in
/-- **Forward declarations.** A unit stays accepted without a forward declaration in a list of its
top level or of a namespace. The types stay the same exactly if the declaration is redundant, and
then so do the records and the diagnostics. -/
theorem analyze_without_forward (o : Options) (file : String) (fs : List Frame)
    (pre post : List Decl) (h : Header) (hannotations : h.annotations = [])
    (haccepted : ({ filePath := file, decls := plug fs (pre ++ forward h :: post) } :
      TranslationUnit).check o = .ok ()) :
    let redundant := ∀ e, TypeIndex.entryOf? o (framePath fs) (forward h) = some e →
      TypeIndex.Redundant
        (TypeIndex.entriesBefore o [] fs ++ TypeIndex.indexed o (framePath fs) pre) e
        (TypeIndex.indexed o (framePath fs) post ++ TypeIndex.entriesAfter o [] fs)
    ∃ given reduced,
      analyze o { filePath := file, decls := plug fs (pre ++ forward h :: post) } = .ok given ∧
      analyze o { filePath := file, decls := plug fs (pre ++ post) } = .ok reduced ∧
      ((TypeIndex.ofDecls o (plug fs (pre ++ forward h :: post))).SameTypes
        (TypeIndex.ofDecls o (plug fs (pre ++ post))) ↔ redundant) ∧
      (redundant → reduced.records = given.records ∧ reduced.diagnostics = given.diagnostics) := by
  intro redundant
  have hsub : pre ++ post ⊆ pre ++ forward h :: post :=
    List.append_subset.mpr ⟨List.subset_append_left _ _,
      fun d hd => List.mem_append_right _ (List.mem_cons_of_mem _ hd)⟩
  have hchecked := TranslationUnit.checkDecls_of_check haccepted
  have hreduced := TranslationUnit.check_withDecls haccepted
    (Structure.checkDecls_plug hsub fs hchecked)
  have hiff := TypeIndex.sameTypes_forward_iff o fs pre post hannotations
  refine ⟨_, _, analyze_of_check haccepted, analyze_of_check hreduced, hiff, fun hredundant => ?_⟩
  have hwalk : finalState o { filePath := file, decls := plug fs (pre ++ post) } =
      finalState o { filePath := file, decls := plug fs (pre ++ forward h :: post) } := by
    let ctx := Context.ofUnit o { filePath := file, decls := plug fs (pre ++ forward h :: post) }
    have hsame : ctx.index.SameTypes (TypeIndex.ofDecls o (plug fs (pre ++ post))) :=
      hiff.mpr hredundant
    have hindex := walk_withIndex hsame (TypeIndex.distinct_ofDecls _ _)
      (TypeIndex.distinct_ofDecls _ _) (plug fs (pre ++ post)) {}
    have halike := ((walkAlike_forward hannotations pre post).plug fs) ctx {} rfl
    exact hindex.trans halike.symm
  rw [hwalk]
  exact ⟨rfl, rfl⟩

/-- A type that is defined with members right after its forward declaration, inside a namespace. -/
theorem analyze_without_forward_of_definition :
    let fs : List Frame := [{ header := { name := "game" } }]
    let hero := Decl.record { name := "Hero", annotations := ["lua_export_class"] } {}
      [.method { name := "ping" } {}]
    ∃ given reduced,
      analyze {} { filePath := "hero.h", decls := plug fs [forward { name := "Hero" }, hero] } =
        .ok given ∧
      analyze {} { filePath := "hero.h", decls := plug fs [hero] } = .ok reduced ∧
      reduced.records = given.records ∧ reduced.diagnostics = given.diagnostics := by
  intro fs hero
  have haccepted : ({ filePath := "hero.h", decls := plug fs [forward { name := "Hero" }, hero] } :
      TranslationUnit).check {} = .ok () := TranslationUnit.check_default (by decide) rfl
  obtain ⟨given, reduced, hgiven, hreduced, -, hsame⟩ :=
    analyze_without_forward {} "hero.h" fs [] [hero] { name := "Hero" } rfl haccepted
  refine ⟨given, reduced, hgiven, hreduced, hsame ?_⟩
  intro e he
  cases he
  refine .inr ⟨_, _, rfl, rfl, rfl, .inl ⟨_, List.mem_cons_self, ?_⟩⟩
  decide

end ScriptExport
