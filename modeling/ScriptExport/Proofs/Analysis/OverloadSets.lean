import ScriptExport.Proofs.Analysis.Flattening
import ScriptExport.Proofs.Analysis.ScriptNames
import ScriptExport.Proofs.Record.Overloads

/-!
# Telling overloads apart

Records are kept apart by kind, qualified name, parameter types and constness, while an overload set is
formed by owner and script name. A script has only the parameter types and the constness to choose by, so
two records of a set can be alike to it, in three ways (`SharesName`): under an alias one has the name of
the other, they stand in different scopes of one owner, or one element was exported as two kinds. The
members of a class are also kept apart by name and signature, whatever their kind and their aliases, so
without aliases this does not happen among the records that one visit adds (`toldApart_addedAt`).
-/

namespace ScriptExport

/-- Whether the record has its script name from its alias. -/
def ExportRecord.isRenamed (r : ExportRecord) : Bool :=
  r.alias?.map Text.trim = some r.scriptName

theorem isRenamed_or_scriptName_eq {r : ExportRecord}
    (h : r.scriptName = Naming.scriptName r.name r.alias?) :
    r.isRenamed = true ∨ r.scriptName = r.name := by
  unfold ExportRecord.isRenamed
  rw [h]
  unfold Naming.scriptName
  cases r.alias? with
  | none => exact .inr rfl
  | some name =>
    rw [Option.bind_some, Text.trimmed?]
    split
    · exact .inr rfl
    · exact .inl (decide_eq_true rfl)

namespace Analysis

/-! ## What one visit adds -/

/-- `t` has the records of `s` and behind them some of the given ones, in order. -/
def State.GainsFrom (rs : List ExportRecord) (s t : State) : Prop :=
  ∃ new, new.Sublist rs ∧ t.records.toList = s.records.toList ++ new

namespace State.GainsFrom

variable {s t u : State} {rs rs' : List ExportRecord} {r : ExportRecord}

theorem of_sameResult (h : t.SameResult s) : s.GainsFrom [] t :=
  ⟨[], List.Sublist.refl [], by rw [h.records, List.append_nil]⟩

theorem of_changes (h : s.Changes (fun _ => False) t) : s.GainsFrom [] t :=
  of_sameResult h.sameResult

theorem trans (h : s.GainsFrom rs t) (h' : t.GainsFrom rs' u) : s.GainsFrom (rs ++ rs') u := by
  obtain ⟨new, hnew, hrecords⟩ := h
  obtain ⟨new', hnew', hrecords'⟩ := h'
  exact ⟨new ++ new', hnew.append hnew', by rw [hrecords', hrecords, List.append_assoc]⟩

/-- Nothing comes in before. -/
theorem after (h : t.GainsFrom rs u) (hs : s.Changes (fun _ => False) t) : s.GainsFrom rs u :=
  (of_changes hs).trans h

/-- Nothing comes in afterwards. -/
theorem before (h : s.GainsFrom rs t) (hu : u.SameResult t) : s.GainsFrom rs u := by
  have := h.trans (of_sameResult hu)
  rwa [List.append_nil] at this

/-- An offered record is what a state gains, if anything. -/
theorem emit (s : State) (r : ExportRecord) : s.GainsFrom [r] (s.emit r) := by
  unfold State.emit
  split
  · exact ⟨[], List.nil_sublist _, (List.append_nil _).symm⟩
  · split
    · exact ⟨[], List.nil_sublist _, (List.append_nil _).symm⟩
    · exact ⟨[r], List.Sublist.refl _, by simp [State.push, State.log, State.note]⟩

theorem emitContainer (s : State) (r : ExportRecord) (instantiation : Option String) :
    s.GainsFrom [r] (s.emitContainer r instantiation) := by
  unfold State.emitContainer
  split
  · exact GainsFrom.emit s r
  · exact GainsFrom.emit s r

theorem foldl_emit (s : State) (rs : List ExportRecord) :
    s.GainsFrom rs (rs.foldl (fun s r => s.emit r) s) := by
  induction rs generalizing s with
  | nil => exact of_changes .refl
  | cons r rs ih => exact (GainsFrom.emit s r).trans (ih (s.emit r))

end State.GainsFrom

section Leaves

variable (s : State) (ctx : Context) (a : Directive)

theorem gainsFrom_exportContainer (h : Header) (target : TypeRef) (expected : ContainerKind) :
    ∃ rs, rs.length ≤ 1 ∧ s.GainsFrom rs (exportContainer ctx h target a expected s) := by
  obtain ⟨t, ht, hsame | ⟨r, instantiation, -, -, hemit⟩⟩ := exportContainer_cases s target expected
  · rw [hsame]
    exact ⟨[], by simp, .of_changes ht⟩
  · rw [hemit]
    exact ⟨[r], by simp, (State.GainsFrom.emitContainer t r instantiation).after ht⟩

/-- A declaration without a scope adds one record at most. -/
theorem gainsFrom_exportLeaf (d : Decl) :
    ∃ rs, rs.length ≤ 1 ∧ s.GainsFrom rs (exportLeaf ctx d a s) := by
  have hnothing : ∃ rs : List ExportRecord, rs.length ≤ 1 ∧ s.GainsFrom rs s :=
    ⟨[], by simp, .of_changes .refl⟩
  unfold exportLeaf
  split
  · unfold exportFunction
    split
    · exact ⟨[], by simp, .of_changes (changes_skip _ _ _)⟩
    · exact ⟨_, by simp, (State.GainsFrom.emit _ _).after (changes_useTypes _ _ _)⟩
  · unfold exportVariable
    dsimp only
    split
    · exact ⟨_, by simp, (State.GainsFrom.emit _ _).after
        ((changes_useType _ _ _).trans (changes_bindConstant _ _ _ _))⟩
    · exact ⟨_, by simp, (State.GainsFrom.emit _ _).after (changes_useType _ _ _)⟩
  · unfold exportEnum
    exact ⟨_, by simp, (State.GainsFrom.emit _ _).after
      ((changes_reportAll _ _).trans (.of_change (.constants _ _)))⟩
  · unfold exportAlias
    split
    · unfold exportCallback
      split
      · exact ⟨[], by simp, .of_changes (changes_report _ _)⟩
      · exact ⟨_, by simp, (State.GainsFrom.emit _ _).after (changes_useTypes _ _ _)⟩
    · exact gainsFrom_exportContainer s ctx a _ _ _
    · exact gainsFrom_exportContainer s ctx a _ _ _
    · exact hnothing
  · exact hnothing

end Leaves

/-- No two callables among the records have the same name and signature. -/
def ToldApart (rs : List ExportRecord) : Prop :=
  ((rs.filter (·.kind.isCallable)).map (·.memberKey)).Nodup

namespace ToldApart

variable {rs rs' : List ExportRecord}

theorem of_length_le_one (h : rs.length ≤ 1) : ToldApart rs := by
  unfold ToldApart
  rcases rs with _ | ⟨r, _ | ⟨r', rs⟩⟩
  · exact List.nodup_nil
  · cases hr : r.kind.isCallable <;> simp [hr]
  · simp at h

/-- Records that are no callables do not count. -/
theorem append_left (h : ToldApart rs) (hother : ∀ r ∈ rs', r.kind.isCallable = false) :
    ToldApart (rs' ++ rs) := by
  have hnone : rs'.filter (·.kind.isCallable) = [] :=
    List.filter_eq_nil_iff.mpr fun r hr => by simp [hother r hr]
  unfold ToldApart
  rwa [List.filter_append, hnone]

/-- The members of a class compete for their keys. -/
theorem of_surfaceKeys (h : (rs.map surfaceKey).Nodup) : ToldApart rs := by
  have hkey : ∀ r ∈ rs.filter (·.kind.isCallable), r.memberKey = surfaceKey r := by
    intro r hr
    have hcallable := (List.mem_filter.mp hr).2
    unfold surfaceKey
    rw [if_neg]
    intro hproperty
    rw [hproperty] at hcallable
    cases hcallable
  unfold ToldApart
  rw [List.map_congr_left hkey]
  exact h.sublist (List.filter_sublist.map _)

theorem eq_of_mem (h : ToldApart rs) {r r' : ExportRecord} (hr : r ∈ rs) (hr' : r' ∈ rs)
    (hcallable : r.kind.isCallable = true) (hcallable' : r'.kind.isCallable = true)
    (hkey : r.memberKey = r'.memberKey) : r = r' :=
  List.inj_on_of_nodup_map h (List.mem_filter.mpr ⟨hr, hcallable⟩)
    (List.mem_filter.mpr ⟨hr', hcallable'⟩) hkey

end ToldApart

theorem gainsFrom_exportMembers (s : State) (ctx : Context) (owner : Owner) (members : List Decl) :
    ∃ rs, ToldApart rs ∧ s.GainsFrom rs (exportMembers ctx owner .own members { state := s }).state := by
  rw [exportMembers_own]
  have hquiet := Surface.quiet_noteMembers ctx.options.marker owner members { state := s }
  obtain ⟨-, hresult⟩ := offered_foldl_addSlot ctx owner (places ctx.options.marker owner .own members)
    (Surface.noteMembers ctx.options.marker owner members { state := s })
  exact ⟨_, .of_surfaceKeys (nodup_firstOfEachKey _),
    (State.GainsFrom.foldl_emit s _).before (hresult.trans (hquiet.result.foldl_emit _))⟩

/-- A class adds records that are told apart. -/
theorem gainsFrom_exportClassMembers (s : State) (ctx : Context) (h : Header)
    (traits : RecordTraits) (members : List Decl) (a : Directive) :
    ∃ rs, ToldApart rs ∧ s.GainsFrom rs (exportClassMembers ctx h traits members a s) := by
  obtain ⟨-, hresult⟩ := offered_classSurface ctx h traits members a s
  have hbound : ∀ bases : List TypeEntry,
      s.bindBases (ctx.enterClass h a) h (ctx.classOwner h traits members a).qualifiedName bases =
        (bases.map ((ctx.enterClass h a).inheritRecord h
          (ctx.classOwner h traits members a).qualifiedName)).foldl (fun s r => s.emit r) s :=
    fun bases => by rw [State.bindBases, List.foldl_map]
  rw [hbound] at hresult
  refine ⟨_, .append_left (.of_surfaceKeys (nodup_firstOfEachKey _)) ?_,
    ((State.GainsFrom.foldl_emit s _).trans (State.GainsFrom.foldl_emit _ _)).before hresult⟩
  intro r hr
  obtain ⟨e, -, rfl⟩ := List.mem_map.mp hr
  rfl

/-- Callables that one visit adds differ in name or signature. -/
theorem Visit.gainsFrom_run (v : Visit) (s : State) :
    ∃ rs, ToldApart rs ∧ s.GainsFrom rs (v.run s) := by
  have hvisit := changes_visit (P := fun _ => False) s v.ctx v.decl
  unfold Visit.run
  dsimp only
  split
  · exact ⟨[], .of_length_le_one (by simp), .of_changes hvisit⟩
  · generalize v.verdict.directive = directive
    generalize v.decl = d at hvisit
    have hleaf : ∀ a, ∃ rs, ToldApart rs ∧ s.GainsFrom rs (exportLeaf v.ctx d a (s.visit v.ctx d)) := by
      intro a
      obtain ⟨rs, hlength, hgains⟩ := gainsFrom_exportLeaf (s.visit v.ctx d) v.ctx a d
      exact ⟨rs, .of_length_le_one hlength, hgains.after hvisit⟩
    have hnothing : ∃ rs, ToldApart rs ∧ s.GainsFrom rs (s.visit v.ctx d) :=
      ⟨[], .of_length_le_one (by simp), .of_changes hvisit⟩
    cases d with
    | nameSpace h decls =>
      cases directive with
      | none => exact hnothing
      | some a => exact ⟨_, .of_length_le_one (by simp), (State.GainsFrom.emit _ _).after hvisit⟩
    | record h traits members =>
      cases directive with
      | none =>
        obtain ⟨rs, hrs, hgains⟩ := gainsFrom_exportMembers (s.visit v.ctx (.record h traits members))
          (v.ctx.enterRecord h) { qualifiedName := (v.ctx.enterRecord h).scopes.owner?.getD "" } members
        exact ⟨rs, hrs, hgains.after hvisit⟩
      | some a =>
        have hclass := (State.GainsFrom.emit (s.visit v.ctx (.record h traits members))
          (v.ctx.classRecord h traits members a)).after hvisit
        unfold Visit.contribute
        dsimp only
        split
        · obtain ⟨rs, hrs, hgains⟩ := gainsFrom_exportClassMembers
            ((s.visit v.ctx (.record h traits members)).emit
              (v.ctx.classRecord h traits members a)) v.ctx h traits members a
          refine ⟨_, hrs.append_left ?_, hclass.trans hgains⟩
          intro r hr
          rw [List.mem_singleton.mp hr]
          rfl
        · exact ⟨_, .of_length_le_one (by simp), hclass⟩
    | _ =>
      cases directive with
      | none => exact hnothing
      | some a => exact hleaf a

/-- The records that come in at a visit, after other visits. -/
def addedAt (before : List Visit) (v : Visit) : List ExportRecord :=
  (runVisits (before ++ [v]) {}).records.toList.drop (runVisits before {}).records.size

theorem toldApart_addedAt (before : List Visit) (v : Visit) : ToldApart (addedAt before v) := by
  obtain ⟨rs, hrs, new, hnew, hrecords⟩ := v.gainsFrom_run (runVisits before {})
  have hadded : addedAt before v = new := by
    unfold addedAt
    rw [runVisits_append, runVisits_cons, runVisits_nil, hrecords]
    exact List.drop_left' rfl
  rw [hadded]
  exact List.Nodup.sublist ((hnew.filter _).map _) hrs

/-- The records came in at one visit. -/
def AddedTogether (o : Options) (u : TranslationUnit) (r r' : ExportRecord) : Prop :=
  ∃ before v after, visits (Context.ofUnit o u) u.decls = before ++ v :: after ∧
    r ∈ addedAt before v ∧ r' ∈ addedAt before v

/-! ## Where callables come from -/

theorem alias?_record (ctx : Context) (kind : ExportKind) (h : Header) (name : String)
    (directive : Option Directive) :
    (ctx.record kind h name directive).alias? = directive.bind (·.scriptAlias?) := by
  cases directive with
  | none => rfl
  | some a => exact ExportRecord.alias?_eq rfl

/-- What the declaration of a callable decides. -/
structure Context.Names (ctx : Context) (r : ExportRecord) : Prop where
  scriptName : r.scriptName = Naming.scriptName r.name r.alias?
  qualifiedName : r.qualifiedName = ctx.scopes.qualifiedName r.name
  owner : r.ownerType = ctx.scopes.owner?.getD ""

theorem Context.names_callableRecord (ctx : Context) (kind : ExportKind) (h : Header) (c : Callable)
    (directive : Option Directive) : ctx.Names (ctx.callableRecord kind h c directive) where
  scriptName := congrArg (Naming.scriptName h.name) (alias?_record ctx kind h h.name directive).symm
  qualifiedName := rfl
  owner := rfl

/-- The declarations whose records are callables. -/
theorem Context.Represents.callable {ctx : Context} {d : Decl} {r : ExportRecord} {ts : List TypeRef}
    (h : ctx.Represents d r ts) (hcallable : r.kind.isCallable = true) :
    ctx.Names r ∧ (d.isMemberOnly = true ∨ r.kind = .function ∨ r.kind = .operator) := by
  cases h with
  | function ha hkind =>
    refine ⟨ctx.names_callableRecord _ _ _ _, .inr ?_⟩
    show _ = _ ∨ _ = _
    rw [hkind]
    split
    · exact .inr rfl
    · exact .inl rfl
  | constructor h c => exact ⟨ctx.names_callableRecord _ _ _ _, .inl rfl⟩
  | method h c => exact ⟨ctx.names_callableRecord _ _ _ _, .inl rfl⟩
  | @nameSpace h decls a ha =>
    exfalso
    revert hcallable
    unfold Context.namespaceRecord Context.record
    by_cases hm : a.kind = .moduleScope <;> simp [hm, ExportKind.isCallable]
  | _ => cases hcallable

section Units

variable {o : Options} {u : TranslationUnit} {r r' : ExportRecord}

theorem scopes_inside_record (ctx : Context) (h : Header) (traits : RecordTraits)
    (members : List Decl) : ∃ placement exported,
      (ctx.inside (.record h traits members)).scopes =
        ctx.scopes.enter h.name .record placement exported := by
  unfold Context.inside
  dsimp only
  split <;> exact ⟨_, _, rfl⟩

/-- What is directly in a record is qualified by its owner. -/
theorem Context.Names.qualifiedName_of_record {ctx : Context} {h : Header} {traits : RecordTraits}
    {members : List Decl} (hr : (ctx.inside (.record h traits members)).Names r)
    (hname : Text.isBlankText r.name = false) :
    r.qualifiedName = r.ownerType ++ "::" ++ Text.trim r.name := by
  obtain ⟨placement, exported, hscopes⟩ := scopes_inside_record ctx h traits members
  rw [hr.qualifiedName, hr.owner, hscopes]
  unfold Scopes.qualifiedName Text.trimmed?
  rw [hname]
  rfl

/-- The names of a callable of a unit. -/
theorem names_of_mem_records (hr : r ∈ (finalState o u).records.toList)
    (hcallable : r.kind.isCallable = true) :
    r.scriptName = Naming.scriptName r.name r.alias? ∧
      (r.kind = .function ∨ r.kind = .operator ∨
        r.qualifiedName = r.ownerType ++ "::" ++ Text.trim r.name) := by
  obtain ⟨p, -, v, m, h, ts, hvisit, hmakes, -⟩ := exists_makes_of_mem_records hr
  have hname := ((sound_finalState o u).named r hr).1
  cases hmakes with
  | itself h =>
    obtain ⟨hnames, hmember | hkind⟩ := h.callable hcallable
    · -- the walk passes over the members of a record
      exfalso
      have hdecl : v.decl = p.decl := by rw [Occurrence.of_visit? hvisit]
      unfold Occurrence.visit? at hvisit
      rw [← hdecl, hmember] at hvisit
      cases hvisit
    · exact ⟨hnames.scriptName, hkind.imp_right .inl⟩
  | member hlist hm hkept h =>
    obtain ⟨hnames, -⟩ := h.callable hcallable
    cases hdecl : v.decl with
    | record head traits members =>
      rw [hdecl] at hnames
      exact ⟨hnames.scriptName, .inr (.inr (hnames.qualifiedName_of_record hname))⟩
    | _ =>
      unfold Visit.memberLists at hlist
      rw [hdecl] at hlist
      cases hlist
  | binding => cases hcallable
  | property => cases hcallable

end Units

/-! ## Overload sets -/

/-- Why two callables that a script cannot tell apart both stand in an overload set of the unit. -/
inductive SharesName (o : Options) (u : TranslationUnit) (r r' : ExportRecord) : Prop where
  /-- Under an alias one of them has the script name of the other. -/
  | renamed (hname : r.name ≠ r'.name) (halias : r.isRenamed = true ∨ r'.isRenamed = true)
  /-- They stand in different scopes of the owner. -/
  | elsewhere (hname : r.name = r'.name) (hqualified : r.qualifiedName ≠ r'.qualifiedName)
    (hkind : ∃ x ∈ [r, r'], x.kind = .function ∨ x.kind = .operator)
    (hapart : ¬ AddedTogether o u r r')
  /-- One element was exported as two kinds. -/
  | otherKind (hname : r.name = r'.name) (hqualified : r.qualifiedName = r'.qualifiedName)
    (hkind : r.kind ≠ r'.kind) (hapart : ¬ AddedTogether o u r r')

section Units

variable {o : Options} {u : TranslationUnit} {r r' : ExportRecord}
  (hcallable : r.kind.isCallable = true) (hcallable' : r'.kind.isCallable = true)
  (hparams : r.parameterTypes = r'.parameterTypes) (hconst : r.isConst = r'.isConst)
  (hdistinct : r.identity ≠ r'.identity)
include hcallable hcallable' hparams hconst hdistinct

theorem not_addedTogether (hname : r.name = r'.name) : ¬ AddedTogether o u r r' := by
  rintro ⟨before, v, -, -, hr, hr'⟩
  have hkey : r.memberKey = r'.memberKey := by
    unfold ExportRecord.memberKey
    rw [hname, hparams, hconst]
  have heq := (toldApart_addedAt before v).eq_of_mem hr hr' hcallable hcallable' hkey
  exact hdistinct (congrArg ExportRecord.identity heq)

/-- Overloads of one set come from declarations of one name. -/
theorem sharesName_of_alike (hr : r ∈ (finalState o u).records.toList)
    (hr' : r' ∈ (finalState o u).records.toList) (hkey : r.overloadKey = r'.overloadKey) :
    SharesName o u r r' := by
  obtain ⟨howner, hscript⟩ : r.ownerType = r'.ownerType ∧ r.scriptName = r'.scriptName := by
    simpa [ExportRecord.overloadKey] using hkey
  obtain ⟨hnamed, hplace⟩ := names_of_mem_records hr hcallable
  obtain ⟨hnamed', hplace'⟩ := names_of_mem_records hr' hcallable'
  by_cases hname : r.name = r'.name
  · have hapart := not_addedTogether (o := o) (u := u) hcallable hcallable' hparams hconst hdistinct hname
    by_cases hqualified : r.qualifiedName = r'.qualifiedName
    · refine .otherKind hname hqualified (fun hkind => hdistinct ?_) hapart
      simp only [ExportRecord.identity, hkind, hqualified, hparams, hconst]
    · refine .elsewhere hname hqualified ?_ hapart
      by_contra hfree
      simp only [List.mem_cons, List.not_mem_nil, or_false, exists_eq_or_imp, exists_eq_left,
        not_or] at hfree
      have hq := (hplace.resolve_left hfree.1.1).resolve_left hfree.1.2
      have hq' := (hplace'.resolve_left hfree.2.1).resolve_left hfree.2.2
      exact hqualified (by rw [hq, hq', howner, hname])
  · refine .renamed hname ?_
    rcases isRenamed_or_scriptName_eq hnamed with halias | heq
    · exact .inl halias
    · rcases isRenamed_or_scriptName_eq hnamed' with halias' | heq'
      · exact .inr halias'
      · exact (hname (heq ▸ heq' ▸ hscript)).elim

end Units

end Analysis

open Analysis

/-- **Overload sets.** An overload set of an accepted unit holds exactly the callables with its owner and
its script name, in order. Two of them differ in parameter types or in constness, unless they share their
name through an alias, across scopes, or as two kinds. -/
theorem overloads_alike_share_name (o : Options) (u : TranslationUnit) (h : u.check o = .ok ()) :
    ∃ exports, analyze o u = .ok exports ∧ ∀ S ∈ groupOverloads exports.records,
      S.records = (exports.records.filter (·.kind.isCallable)).filter
        (fun r => r.overloadKey = (S.ownerType, S.scriptName)) ∧
      S.records.Pairwise fun r r' =>
        r.parameterTypes ≠ r'.parameterTypes ∨ r.isConst ≠ r'.isConst ∨ SharesName o u r r' := by
  refine ⟨_, analyze_of_check h, fun S hS => ?_⟩
  have hrecords := records_of_mem_groupOverloads hS
  refine ⟨hrecords, ?_⟩
  have hdistinct : S.records.Pairwise fun r r' => r.identity ≠ r'.identity := by
    rw [hrecords]
    exact ((List.pairwise_map.mp (sound_finalState o u).distinct).filter _).filter _
  refine hdistinct.imp_of_mem fun {r r'} hr hr' hne => ?_
  rw [hrecords] at hr hr'
  obtain ⟨hr, hkey⟩ := List.mem_filter.mp hr
  obtain ⟨hr, hcallable⟩ := List.mem_filter.mp hr
  obtain ⟨hr', hkey'⟩ := List.mem_filter.mp hr'
  obtain ⟨hr', hcallable'⟩ := List.mem_filter.mp hr'
  have hsame : r.overloadKey = r'.overloadKey :=
    (of_decide_eq_true hkey).trans (of_decide_eq_true hkey').symm
  by_cases hparams : r.parameterTypes = r'.parameterTypes
  · by_cases hconst : r.isConst = r'.isConst
    · exact .inr (.inr
        (sharesName_of_alike hcallable hcallable' hparams hconst hne hr hr' hsame))
    · exact .inr (.inl hconst)
  · exact .inl hparams

/-- Two functions of different namespaces and a third one under an alias make one overload set, and so
does an operator that is exported as a function as well. None of them takes a parameter. -/
theorem overloads_alike_share_name_in_all_ways :
    let marked := fun name text => Decl.function { name, annotations := [text] } {}
    let a := Decl.nameSpace { name := "a" } [marked "f" "lua_export_function"]
    let b := Decl.nameSpace { name := "b" } [marked "f" "lua_export_function"]
    let u : TranslationUnit :=
      { filePath := "f.h"
        decls := [a, b, marked "stop" "lua_export_function,alias=f",
          marked "operator+" "lua_export_function", marked "operator+" "lua_export_operator"] }
    u.check {} = .ok () ∧ ∃ exports, analyze {} u = .ok exports ∧
      (groupOverloads exports.records).map (fun S => (S.scriptName, S.records.map (·.qualifiedName))) =
        [("f", ["a::f", "b::f", "stop"]), ("operator+", ["operator+", "operator+"])] ∧
      ∀ S ∈ groupOverloads exports.records,
        S.records = (exports.records.filter (·.kind.isCallable)).filter
          (fun r => r.overloadKey = (S.ownerType, S.scriptName)) ∧
        (∀ r ∈ S.records, r.parameterTypes = [] ∧ r.isConst = false) ∧
        S.records.Pairwise fun r r' =>
          r.parameterTypes ≠ r'.parameterTypes ∨ r.isConst ≠ r'.isConst ∨ SharesName {} u r r' := by
  intro marked a b u
  have haccepted : u.check {} = .ok () := TranslationUnit.check_default (by decide) rfl
  obtain ⟨exports, hexports, hsets⟩ := overloads_alike_share_name {} u haccepted
  refine ⟨haccepted, exports, hexports, ?_⟩
  have halike : ∀ S ∈ groupOverloads (finalState {} u).records.toList, ∀ r ∈ S.records,
      r.parameterTypes = [] ∧ r.isConst = false := by decide
  obtain rfl := Except.ok.inj ((analyze_of_check haccepted).symm.trans hexports)
  refine ⟨by decide, fun S hS => ?_⟩
  obtain ⟨hrecords, hpairs⟩ := hsets S hS
  exact ⟨hrecords, halike S hS, hpairs⟩

end ScriptExport
