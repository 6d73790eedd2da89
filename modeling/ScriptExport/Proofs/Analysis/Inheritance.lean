import ScriptExport.Proofs.Analysis.Growth
import ScriptExport.Proofs.Analysis.Outline
import ScriptExport.Proofs.Text.Trimming

/-!
# Classes and their exported bases

Whether a type is exported is decided twice: by the index before the walk, and by the walk when it
comes to the declaration. The class record of a type comes from the first declaration that the walk
exports (`exists_class_iff`); a binding to a base has its script name from the first declaration in
the index (`binding_of_mem_records`). So a binding and the class it names agree exactly if these two
declarations do, and a class is bound to each public base that the index knows to be exported.
-/

namespace ScriptExport

/-! ## Ancestry -/

variable {index : TypeIndex} {scope : List String} {e : TypeEntry} {base : Base} {o : Options}
  {v : Visit} {c r : ExportRecord} {traits : RecordTraits} {members : List Decl} {vs : List Visit}
  {u : TranslationUnit}

namespace TypeIndex

/-- Ancestors are indexed types. -/
theorem mem_entries_of_mem_ancestry {path : List String} {bases : List Base}
    (h : e ∈ index.ancestry path scope bases) : e ∈ index.entries := by
  fun_induction ancestry index path scope bases with
  | case1 => cases h
  | case2 _ _ _ _ _ _ ih => exact ih h
  | case3 _ _ _ _ _ _ _ _ ih => exact ih h
  | case4 _ _ _ _ _ _ hlookup _ _ ih =>
    rcases List.mem_cons.mp h with rfl | h
    · exact mem_of_lookup? hlookup
    · exact ih h
  | case5 _ _ _ _ _ _ hlookup _ _ ihAbove ih =>
    rcases List.mem_cons.mp h with rfl | h
    · exact mem_of_lookup? hlookup
    · exact (List.mem_append.mp h).elim ihAbove ih
  | case6 _ _ _ _ _ ih => exact ih h

theorem lookup?_of_find? {name : String} (h : index.find? (Text.spelling name) = some e)
    (scope : List String) : index.lookup? name scope = some e := by
  unfold lookup?
  dsimp only
  rw [h, Option.some_or]

/-- What a public base leads to is in the ancestry. -/
theorem entered_subset_ancestry {path : List String} {bases : List Base} (hbase : base ∈ bases)
    (hpublic : base.access.isPublic = true) :
    index.entered path (index.lookup? base.name scope) ⊆ index.ancestry path scope bases := by
  induction bases with
  | nil => cases hbase
  | cons base' bases ih =>
    rw [ancestry_cons]
    rcases List.mem_cons.mp hbase with rfl | hbase
    · rw [if_pos hpublic]
      exact List.subset_append_left _ _
    · exact List.Subset.trans (ih hbase) (List.subset_append_right _ _)

/-- The type that a public base names is in the ancestry, unless it is on the path. -/
theorem mem_ancestry_of_mem_bases {path : List String} {bases : List Base} (hbase : base ∈ bases)
    (hpublic : base.access.isPublic = true) (he : index.lookup? base.name scope = some e)
    (hpath : e.qualifiedName ∉ path) : e ∈ index.ancestry path scope bases := by
  apply entered_subset_ancestry hbase hpublic
  rw [he, entered, if_neg hpath]
  split <;> exact List.mem_cons_self

end TypeIndex

/-! ## Qualified names -/

theorem qualify_cons (p : String) (path : List String) (name : String) :
    qualify (p :: path) name = p ++ "::" ++ qualify path name := by
  cases path <;> rfl

theorem qualify_concat (path : List String) (p name : String) :
    qualify (path ++ [p]) name = qualify path p ++ "::" ++ name := by
  induction path with
  | nil => rfl
  | cons first path ih =>
    rw [List.cons_append, qualify_cons, qualify_cons, ih]
    simp only [String.append_assoc]

theorem isBlankText_qualify {name : String} (h : Text.isBlankText name = false)
    (path : List String) : Text.isBlankText (qualify path name) = false := by
  induction path with
  | nil => exact h
  | cons p path ih => rw [qualify_cons, Text.isBlankText_append, ih, Bool.and_false]

namespace TypeIndex

/-- Indexed types have names. -/
theorem entryOf?_eq_some {d : Decl} (h : entryOf? o scope d = some e) :
    Text.isBlankText e.qualifiedName = false := by
  unfold entryOf? at h
  dsimp only at h
  split at h
  · cases h
  · next hkept =>
    cases h
    have hname : Text.isBlankText d.name = false := by
      simp only [Bool.or_eq_true, not_or, Bool.not_eq_true] at hkept
      exact hkept.1.1
    exact isBlankText_qualify hname scope

/-- What holds of the entry that any record declaration makes holds of all entries. -/
theorem forall_mem_indexed {P : TypeEntry → Prop}
    (hP : ∀ scope d e, entryOf? o scope d = some e → P e) (scope : List String) (ds : List Decl)
    (he : e ∈ indexed o scope ds) : P e := by
  induction ds using Decl.list_induction generalizing scope with
  | nil => cases he
  | cons d ds ihContents ih =>
    rw [indexed] at he
    rcases List.mem_append.mp he with he | he
    · cases d with
      | nameSpace h decls =>
        rw [indexedOf] at he
        exact ihContents _ he
      | record h traits members =>
        rw [indexedOf] at he
        rcases List.mem_append.mp he with he | he
        · exact hP _ _ _ (Option.mem_toList.mp he)
        · exact ihContents _ he
      | _ => cases he
    · exact ih scope he

theorem isBlankText_of_mem_entries {ds : List Decl} (he : e ∈ (ofDecls o ds).entries) :
    Text.isBlankText e.qualifiedName = false := by
  obtain ⟨first, hfirst, -⟩ := scriptName_of_mem_entries he
  have hq : first.qualifiedName = e.qualifiedName := by simpa using List.find?_some hfirst
  rw [← hq]
  exact forall_mem_indexed (fun _ _ _ => entryOf?_eq_some) [] ds (List.mem_of_find?_eq_some hfirst)

end TypeIndex

namespace Analysis

/-! ## What a visit adds -/

/-- The class record that a visit exports. -/
def Visit.exportedClass? (v : Visit) : Option ExportRecord :=
  match v.decl, v.verdict.directive with
  | .record h traits members, some a =>
    if (v.ctx.classRecord h traits members a).isValid then
      some (v.ctx.classRecord h traits members a)
    else none
  | _, _ => none

/-- An exported class is an annotated record with a name. -/
theorem Visit.exportedClass?_eq_some (h : v.exportedClass? = some c) :
    ∃ head traits members a, v.decl = .record head traits members ∧
      v.verdict.directive = some a ∧ c = v.ctx.classRecord head traits members a ∧
      c.isValid = true := by
  unfold Visit.exportedClass? at h
  split at h
  · next head traits members a hdecl hdirective =>
    split at h
    · next hvalid =>
      cases h
      exact ⟨head, traits, members, a, hdecl, hdirective, rfl, hvalid⟩
    · cases h
  · cases h

theorem Visit.exportedClass?_of_isValid {head : Header} {a : Directive}
    (hdecl : v.decl = .record head traits members) (hdirective : v.verdict.directive = some a)
    (hvalid : (v.ctx.classRecord head traits members a).isValid = true) :
    v.exportedClass? = some (v.ctx.classRecord head traits members a) := by
  unfold Visit.exportedClass?
  rw [hdecl, hdirective]
  exact if_pos hvalid

/-- The records that bind the class of a visit to the exported types of its ancestry. -/
def Visit.bindings (v : Visit) : List ExportRecord :=
  match v.decl, v.verdict.directive with
  | .record h traits members, some a =>
    if (v.ctx.classRecord h traits members a).isValid then
      let owner := v.ctx.scopes.qualifiedName h.name
      ((v.ctx.index.ancestry [owner] v.ctx.scopes.path traits.bases).filter (·.annotated)).map
        ((v.ctx.enterClass h a).inheritRecord h owner)
    else []
  | _, _ => []

/-- A class is bound to its annotated ancestors. -/
theorem Visit.mem_bindings_iff : r ∈ v.bindings ↔
    ∃ head traits members a, v.decl = .record head traits members ∧ v.verdict.directive = some a ∧
      (v.ctx.classRecord head traits members a).isValid = true ∧
      ∃ e ∈ v.ctx.index.ancestry [v.ctx.scopes.qualifiedName head.name] v.ctx.scopes.path traits.bases,
        e.annotated = true ∧ r =
          (v.ctx.enterClass head a).inheritRecord head (v.ctx.scopes.qualifiedName head.name) e := by
  constructor
  · intro hr
    unfold Visit.bindings at hr
    split at hr
    · next head traits members a hdecl hdirective =>
      split at hr
      · next hvalid =>
        obtain ⟨e, he, rfl⟩ := List.mem_map.mp hr
        obtain ⟨hmem, hannotated⟩ := List.mem_filter.mp he
        exact ⟨head, traits, members, a, hdecl, hdirective, hvalid, e, hmem, hannotated, rfl⟩
      · cases hr
    · cases hr
  · rintro ⟨head, traits, members, a, hdecl, hdirective, hvalid, e, hmem, hannotated, rfl⟩
    unfold Visit.bindings
    rw [hdecl, hdirective]
    dsimp only
    rw [if_pos hvalid]
    exact List.mem_map_of_mem (List.mem_filter.mpr ⟨hmem, hannotated⟩)

/-- A record that a visit may add: its class, one of its bindings, or a record that describes no
type. -/
structure Visit.Adds (v : Visit) (r : ExportRecord) : Prop where
  classType : r.kind = .classType → r.isValid = true → v.exportedClass? = some r
  inherit : r.kind = .inherit → r ∈ v.bindings

/-- What a visit adds is its class, its bindings, and other records. -/
theorem Visit.changes_adds (v : Visit) (s : State) : s.Changes v.Adds (v.run s) := by
  refine v.changes_of_contribute s fun s => changes_contribute ?_ ?_ s _ _ _ ?_ ?_
  · intro r hr
    constructor
    · intro hk
      rw [hk] at hr
      cases hr
    · intro hk
      rw [hk] at hr
      cases hr
  · intro r hr
    constructor
    · intro hk
      rw [hk] at hr
      cases hr
    · intro hk
      rw [hk] at hr
      cases hr
  · intro head traits members a hdecl hdirective
    exact ⟨fun _ hvalid => Visit.exportedClass?_of_isValid hdecl hdirective hvalid,
      fun hk => by cases hk⟩
  · intro head traits members a hdecl hdirective hvalid e he hannotated
    refine ⟨fun hk => (by cases hk), fun _ => Visit.mem_bindings_iff.mpr ?_⟩
    exact ⟨head, traits, members, a, hdecl, hdirective, hvalid, e, he, hannotated, rfl⟩

/-- A visit that exports a class offers its record and then its bindings and members. -/
theorem Visit.run_eq_exportClassMembers {head : Header} {a : Directive}
    (hdecl : v.decl = .record head traits members) (hdirective : v.verdict.directive = some a)
    (hvalid : (v.ctx.classRecord head traits members a).isValid = true) (s : State) :
    v.run s = exportClassMembers v.ctx head traits members a
      ((s.visit v.ctx v.decl).emit (v.ctx.classRecord head traits members a)) := by
  have hkept : v.verdict ≠ .ignored := fun hi => by rw [hi] at hdirective; cases hdirective
  unfold Visit.run
  rw [if_neg hkept, hdirective, hdecl]
  simp only [Visit.contribute, hvalid, ↓reduceIte]

theorem Visit.identity_mem_run (h : v.exportedClass? = some c) (s : State) :
    c.identity ∈ (v.run s).identities := by
  obtain ⟨head, traits, members, a, hdecl, hdirective, rfl, hvalid⟩ :=
    Visit.exportedClass?_eq_some h
  rw [Visit.run_eq_exportClassMembers hdecl hdirective hvalid]
  have hmembers := changes_exportClassMembers (P := fun _ => True) (fun _ _ => trivial)
    ((s.visit v.ctx v.decl).emit (v.ctx.classRecord head traits members a))
    v.ctx head traits members a (fun _ _ _ => trivial)
  exact hmembers.covers.identities (identity_mem_emit _ hvalid)

/-! ## Records that only their qualified names tell apart -/

theorem sound_runVisits (vs : List Visit) : (runVisits vs {}).Sound :=
  (State.Sound.start false).of_changes (changes_runVisits vs {})

theorem sound_finalState (o : Options) (u : TranslationUnit) : (finalState o u).Sound := by
  rw [finalState_eq_runVisits]
  exact sound_runVisits _

/-- Every record of a walk was added at some visit. -/
theorem adds_of_mem_records (hr : r ∈ (runVisits vs {}).records.toList) :
    ∃ v ∈ vs, v.Adds r ∧ r.isValid = true := by
  have hchanges : State.Changes (fun r => ∃ v ∈ vs, v.Adds r) {} (runVisits vs {}) :=
    State.Changes.foldl (fun s v hv => (v.changes_adds s).mono fun r h => ⟨v, hv, h⟩) {}
  obtain ⟨new, hrecords, -, hnew⟩ := hchanges.extends.records
  rw [hrecords] at hr
  obtain ⟨⟨v, hv, hadds⟩, hvalid⟩ := hnew r hr
  exact ⟨v, hv, hadds, hvalid⟩

/-- Whether a record is the one of the kind with the given qualified name. -/
def names (kind : ExportKind) (q : String) (r : ExportRecord) : Bool :=
  r.kind == kind && r.qualifiedName == q

theorem names_iff {kind : ExportKind} {q : String} :
    names kind q r = true ↔ r.kind = kind ∧ r.qualifiedName = q := by
  simp [names]

/-- What a visit offers of a kind: it adds nothing else of the kind, each offered record leaves its
identity behind, which is a matter of the qualified name, and no two have the same one. -/
structure Visit.Offers (kind : ExportKind) (offered : Visit → List ExportRecord) (v : Visit) :
    Prop where
  adds : ∀ r, v.Adds r → r.kind = kind → r.isValid = true → r ∈ offered v
  identity : ∀ r ∈ offered v, r.identity = ⟨kind, r.qualifiedName, [], false⟩
  kept : ∀ r ∈ offered v, ∀ s : State, r.identity ∈ (v.run s).identities
  single : ∀ r ∈ offered v, ∀ r' ∈ offered v, r.qualifiedName = r'.qualifiedName → r = r'

section Offers

variable {kind : ExportKind} {offered : Visit → List ExportRecord}

theorem Visit.Offers.find?_eq_some (h : v.Offers kind offered) (hr : r ∈ offered v) {q : String}
    (hq : r.qualifiedName = q) : (offered v).find? (fun r => r.qualifiedName == q) = some r := by
  have hfound : ((offered v).find? (fun r => r.qualifiedName == q)).isSome = true :=
    List.find?_isSome.mpr ⟨r, hr, beq_iff_eq.mpr hq⟩
  obtain ⟨r', hr'⟩ := Option.isSome_iff_exists.mp hfound
  have hq' : r'.qualifiedName = q := by simpa using List.find?_some hr'
  rw [h.single r hr r' (List.mem_of_find?_eq_some hr') (hq.trans hq'.symm), hr']

/-- A visit adds what it offers for a qualified name unless the name is taken. -/
theorem Visit.Offers.find?_run (h : v.Offers kind offered) {s : State} (hs : s.Sound) (q : String) :
    (v.run s).records.toList.find? (names kind q) =
      (s.records.toList.find? (names kind q)).or
        ((offered v).find? (fun r => r.qualifiedName == q)) := by
  have hsound : (v.run s).Sound := hs.of_changes (v.changes_adds s)
  obtain ⟨new, hrecords, -, hnew⟩ := (v.changes_adds s).extends.records
  rw [hrecords, List.find?_append]
  cases htaken : s.records.toList.find? (names kind q) with
  | some r => rfl
  | none =>
    rw [Option.none_or, Option.none_or]
    cases hadded : new.find? (names kind q) with
    | some r =>
      obtain ⟨hadds, hvalid⟩ := hnew r (List.mem_of_find?_eq_some hadded)
      obtain ⟨hkind, hq⟩ := names_iff.mp (List.find?_some hadded)
      exact (h.find?_eq_some (h.adds r hadds hkind hvalid) hq).symm
    | none =>
      symm
      rw [List.find?_eq_none]
      intro r hr hq
      -- the identity that `r` leaves behind is that of a record, which would have been found
      obtain ⟨r', hr', hid⟩ := (hsound.identities _).mp (h.kept r hr s)
      rw [h.identity r hr, beq_iff_eq.mp hq] at hid
      have hnames : names kind q r' = true :=
        names_iff.mpr ⟨congrArg Identity.kind hid, congrArg Identity.qualifiedName hid⟩
      rw [hrecords] at hr'
      rcases List.mem_append.mp hr' with hr' | hr'
      · exact List.find?_eq_none.mp htaken r' hr' hnames
      · exact List.find?_eq_none.mp hadded r' hr' hnames

/-- The first record of a name is the first one offered. -/
theorem find?_runVisits (h : ∀ v ∈ vs, v.Offers kind offered) {s : State} (hs : s.Sound)
    (q : String) : (runVisits vs s).records.toList.find? (names kind q) =
      (s.records.toList.find? (names kind q)).or
        ((vs.flatMap offered).find? (fun r => r.qualifiedName == q)) := by
  induction vs generalizing s with
  | nil => simp
  | cons v vs ih =>
    have hrun : (v.run s).Sound := hs.of_changes (v.changes s)
    rw [runVisits_cons, ih (fun w hw => h w (List.mem_cons_of_mem v hw)) hrun,
      (h v List.mem_cons_self).find?_run hs, List.flatMap_cons, List.find?_append, Option.or_assoc]

theorem identity_of_offered (h : ∀ v ∈ vs, v.Offers kind offered)
    (hr : r ∈ (runVisits vs {}).records.toList) (hkind : r.kind = kind) :
    r.identity = ⟨kind, r.qualifiedName, [], false⟩ := by
  obtain ⟨v, hv, hadds, hvalid⟩ := adds_of_mem_records hr
  exact (h v hv).identity r ((h v hv).adds r hadds hkind hvalid)

/-- The record of the kind with a qualified name is the first one that a visit offers. -/
theorem exists_offered_iff (h : ∀ v ∈ vs, v.Offers kind offered) (q : String)
    (p : ExportRecord → Prop) :
    (∃ r ∈ (runVisits vs {}).records.toList, r.kind = kind ∧ r.qualifiedName = q ∧ p r) ↔
      ∃ r, (vs.flatMap offered).find? (fun r => r.qualifiedName == q) = some r ∧ p r := by
  have hfirst : (runVisits vs {}).records.toList.find? (names kind q) =
      (vs.flatMap offered).find? (fun r => r.qualifiedName == q) :=
    find?_runVisits h (State.Sound.start false) q
  rw [← hfirst]
  constructor
  · rintro ⟨r, hr, hkind, hq, hp⟩
    have hsome := List.find?_isSome.mpr ⟨r, hr, names_iff.mpr ⟨hkind, hq⟩⟩
    obtain ⟨r', hfind⟩ := Option.isSome_iff_exists.mp hsome
    have hr' := List.mem_of_find?_eq_some hfind
    obtain ⟨hkind', hq'⟩ := names_iff.mp (List.find?_some hfind)
    have hid : r.identity = r'.identity := by
      rw [identity_of_offered h hr hkind, identity_of_offered h hr' hkind', hq, hq']
    cases List.inj_on_of_nodup_map (sound_runVisits vs).distinct hr hr' hid
    exact ⟨r, hfind, hp⟩
  · rintro ⟨r, hfind, hp⟩
    obtain ⟨hkind, hq⟩ := names_iff.mp (List.find?_some hfind)
    exact ⟨r, List.mem_of_find?_eq_some hfind, hkind, hq, hp⟩

/-- The first offer of a qualified name, by the visit that makes it. -/
theorem find?_offered_eq_some_iff (h : ∀ v ∈ vs, v.Offers kind offered) {q : String} :
    (vs.flatMap offered).find? (fun r => r.qualifiedName == q) = some r ↔
      ∃ before v after, vs = before ++ v :: after ∧ (r ∈ offered v ∧ r.qualifiedName = q) ∧
        ∀ w ∈ before, ∀ r' ∈ offered w, r'.qualifiedName ≠ q := by
  rw [List.find?_flatMap, List.findSome?_eq_some_iff]
  constructor
  · rintro ⟨before, v, after, hvs, hfind, hbefore⟩
    refine ⟨before, v, after, hvs, ⟨List.mem_of_find?_eq_some hfind, ?_⟩, ?_⟩
    · simpa using List.find?_some hfind
    · intro w hw r' hr' hq
      exact List.find?_eq_none.mp (hbefore w hw) r' hr' (beq_iff_eq.mpr hq)
  · rintro ⟨before, v, after, rfl, ⟨hr, hq⟩, hbefore⟩
    refine ⟨before, v, after, rfl, ?_, ?_⟩
    · exact (h v (by simp)).find?_eq_some hr hq
    · intro w hw
      rw [List.find?_eq_none]
      intro r' hr' hq'
      exact hbefore w hw r' hr' (beq_iff_eq.mp hq')

end Offers

/-! ## The class records of a walk -/

/-- A visit offers its class. -/
theorem Visit.offers_classType (v : Visit) : v.Offers .classType (·.exportedClass?.toList) where
  adds r hadds hkind hvalid := Option.mem_toList.mpr (hadds.classType hkind hvalid)
  identity r hr := by
    obtain ⟨head, traits, members, a, -, -, rfl, -⟩ :=
      Visit.exportedClass?_eq_some (Option.mem_toList.mp hr)
    rfl
  kept r hr s := Visit.identity_mem_run (Option.mem_toList.mp hr) s
  single r hr r' hr' _ :=
    Option.some.inj ((Option.mem_toList.mp hr).symm.trans (Option.mem_toList.mp hr'))

theorem exists_visit_of_class (hc : c ∈ (runVisits vs {}).records.toList)
    (hkind : c.kind = .classType) : ∃ v ∈ vs, v.exportedClass? = some c := by
  obtain ⟨v, hv, hadds, hvalid⟩ := adds_of_mem_records hc
  exact ⟨v, hv, hadds.classType hkind hvalid⟩

/-- The class record of a type in the result is the one of its first exported declaration. -/
theorem exists_class_iff (vs : List Visit) (q : String) (p : ExportRecord → Prop) :
    (∃ c ∈ (runVisits vs {}).records.toList,
      c.kind = .classType ∧ c.qualifiedName = q ∧ p c) ↔
    ∃ c, (vs.filterMap (·.exportedClass?)).find? (fun c => c.qualifiedName == q) = some c ∧
      p c := by
  rw [List.filterMap_eq_flatMap_toList]
  exact exists_offered_iff (fun v _ => v.offers_classType) q p

/-! ## The bindings of a walk -/

theorem identity_mem_bindBases {bases : List TypeEntry} (he : e ∈ bases) (ctx : Context)
    (h : Header) (owner : String) (s : State)
    (hvalid : (ctx.inheritRecord h owner e).isValid = true) :
    (ctx.inheritRecord h owner e).identity ∈ (s.bindBases ctx h owner bases).identities := by
  induction bases generalizing s with
  | nil => cases he
  | cons e' bases ih =>
    rcases List.mem_cons.mp he with rfl | he
    · have hrest : (s.emit (ctx.inheritRecord h owner e)).Changes (fun _ => True)
          (State.bindBases ctx h owner bases (s.emit (ctx.inheritRecord h owner e))) :=
        State.Changes.foldl (fun s _ _ => changes_emit s trivial) _
      exact hrest.covers.identities (identity_mem_emit s hvalid)
    · exact ih he _

theorem isValid_inheritRecord (h : Text.isBlankText e.qualifiedName = false) (ctx : Context)
    (head : Header) (owner : String) : (ctx.inheritRecord head owner e).isValid = true := by
  refine ExportRecord.isValid_iff.mpr ⟨h, ?_⟩
  show Text.isBlankText (owner ++ " : " ++ e.qualifiedName) = false
  rw [Text.isBlankText_append, h, Bool.and_false]

/-- A class is bound to the exported types of its ancestry, now or before. -/
theorem Visit.identity_mem_run_of_mem_bindings (hr : r ∈ v.bindings) (hvalid : r.isValid = true)
    (s : State) : r.identity ∈ (v.run s).identities := by
  obtain ⟨head, traits, members, a, hdecl, hdirective, hclass, e, he, hannotated, rfl⟩ :=
    Visit.mem_bindings_iff.mp hr
  rw [Visit.run_eq_exportClassMembers hdecl hdirective hclass]
  refine (changes_exportClassMembers_of_bindBases (P := fun _ => True) (fun _ _ => trivial) _ v.ctx
    head traits members a).covers.identities ?_
  exact identity_mem_bindBases (List.mem_filter.mpr ⟨he, hannotated⟩) _ _ _ _ hvalid

/-- An exported class offers a binding to each exported type that it names as a public base. -/
theorem Visit.exists_mem_bindings (h : v.exportedClass? = some c) (hbase : base ∈ v.decl.bases)
    (hpublic : base.access.isPublic = true)
    (he : v.ctx.index.lookup? base.name v.ctx.scopes.path = some e)
    (hannotated : e.annotated = true) (hne : e.qualifiedName ≠ c.qualifiedName) :
    ∃ a head, (v.ctx.enterClass head a).inheritRecord head c.qualifiedName e ∈ v.bindings := by
  obtain ⟨head, traits, members, a, hdecl, hdirective, rfl, hvalid⟩ :=
    Visit.exportedClass?_eq_some h
  rw [hdecl] at hbase
  have hpath : e.qualifiedName ∉ [v.ctx.scopes.qualifiedName head.name] :=
    fun hmem => hne (List.mem_singleton.mp hmem)
  refine ⟨a, head, Visit.mem_bindings_iff.mpr ⟨head, traits, members, a, hdecl, hdirective, hvalid, e,
    ?_, hannotated, rfl⟩⟩
  exact TypeIndex.mem_ancestry_of_mem_bases hbase hpublic he hpath

/-- What a visit leaves behind stays. -/
theorem identity_mem_runVisits (hv : v ∈ vs) {i : Identity}
    (hi : ∀ s : State, i ∈ (v.run s).identities) (s : State) : i ∈ (runVisits vs s).identities := by
  induction vs generalizing s with
  | nil => cases hv
  | cons w vs ih =>
    rcases List.mem_cons.mp hv with rfl | hv
    · exact (changes_runVisits vs (v.run s)).covers.identities (hi s)
    · exact ih hv (w.run s)

/-! ## The index and the walk -/

theorem indexedOf_subset_indexed (o : Options) (scope : List String) {ds : List Decl} {d : Decl}
    (hd : d ∈ ds) : TypeIndex.indexedOf o scope d ⊆ TypeIndex.indexed o scope ds := by
  induction ds with
  | nil => cases hd
  | cons d' ds ih =>
    rw [TypeIndex.indexed]
    rcases List.mem_cons.mp hd with rfl | hd
    · exact List.subset_append_left _ _
    · exact List.Subset.trans (ih hd) (List.subset_append_right _ _)

theorem indexed_children_subset (o : Options) (scope : List String) (d : Decl) :
    TypeIndex.indexed o (scope ++ [scopeName d.name]) d.children ⊆
      TypeIndex.indexedOf o scope d := by
  cases d with
  | nameSpace h decls =>
    rw [TypeIndex.indexedOf]
    exact List.Subset.refl _
  | record h traits members =>
    rw [TypeIndex.indexedOf]
    exact List.subset_append_right _ _
  | _ => exact List.nil_subset _

/-- What ties a visit to the index: its scopes spell their path, and its types are indexed. -/
structure Indexed (o : Options) (all : List TypeEntry) (ctx : Context) (d : Decl) : Prop where
  options : ctx.options = o
  within : ∀ name, ctx.scopes.within name = qualify ctx.scopes.path name
  entries : TypeIndex.indexedOf o ctx.scopes.path d ⊆ all

/-- Everything inside visited scopes is indexed. -/
theorem descends_indexed (o : Options) (all : List TypeEntry) : Descends (Indexed o all) := by
  intro v inner h hinside d hd
  obtain ⟨-, hoptions, -, kind, placement, exported, hscopes⟩ := Visit.of_inside? hinside
  have hpath : inner.scopes.path = v.ctx.scopes.path ++ [scopeName v.decl.name] := by
    rw [hscopes]
    simp [Scopes.path, Scopes.enter]
  refine ⟨hoptions.trans h.options, fun name => ?_, ?_⟩
  · rw [hpath, qualify_concat, ← h.within, hscopes]
    rfl
  · rw [hpath]
    exact List.Subset.trans (indexedOf_subset_indexed o _ hd)
      (List.Subset.trans (indexed_children_subset o _ v.decl) h.entries)

theorem indexed_of_mem_visits (hv : v ∈ visits (Context.ofUnit o u) u.decls) :
    Indexed o (TypeIndex.indexed o [] u.decls) v.ctx v.decl :=
  of_mem_visits (descends_indexed o _) (Context.ofUnit o u) u.decls
    (fun _ hd => ⟨rfl, fun _ => rfl, indexedOf_subset_indexed o [] hd⟩) hv

/-- A directive that counts is stated and applies. -/
theorem directive_of_verdict {ctx : Context} {d : Decl} {a : Directive}
    (h : (ctx.verdict d).directive = some a) :
    (parseAnnotations ctx.options.marker d.annotations).directive = some a ∧
      a.kind.appliesTo d = true := by
  unfold Context.verdict at h
  dsimp only at h
  split at h
  · next a' hparsed =>
    split at h
    · next happlies =>
      cases h
      exact ⟨hparsed, happlies⟩
    · cases h
  · split at h
    · cases h
    · split at h <;> cases h

theorem isClass_of_appliesTo {kind : DirectiveKind} {h : Header}
    (happlies : kind.appliesTo (.record h traits members) = true) : kind.isClass = true := by
  cases kind <;> first | rfl | cases happlies

/-- A class that is exported under a name without blanks around it is an exported type of the index
with the same names, unless it is also marked to be ignored. -/
theorem exists_indexed_of_exportedClass? (hv : v ∈ visits (Context.ofUnit o u) u.decls)
    (hc : v.exportedClass? = some c) (htrim : Text.trim v.decl.name = v.decl.name)
    (hignored : (parseAnnotations o.marker v.decl.annotations).ignored = false) :
    ∃ e ∈ TypeIndex.indexed o [] u.decls, e.annotated = true ∧
      e.qualifiedName = c.qualifiedName ∧ e.scriptName = c.scriptName := by
  have hindexed := indexed_of_mem_visits hv
  obtain ⟨head, traits, members, a, hdecl, hdirective, rfl, hvalid⟩ :=
    Visit.exportedClass?_eq_some hc
  obtain ⟨hparsed, happlies⟩ := directive_of_verdict hdirective
  rw [hindexed.options] at hparsed
  rw [hdecl] at hparsed happlies htrim hignored
  have hblank : Text.isBlankText head.name = false := (ExportRecord.isValid_iff.mp hvalid).1
  have hclass := isClass_of_appliesTo happlies
  have hentry : TypeIndex.entryOf? o v.ctx.scopes.path (.record head traits members) = some
      { decl := .record head traits members
        qualifiedName := qualify v.ctx.scopes.path head.name
        scriptName := Naming.scriptName head.name a.scriptAlias?
        annotated := true
        scope := v.ctx.scopes.path } := by
    have hname : Text.isBlankText (Decl.record head traits members).name = false := hblank
    unfold TypeIndex.entryOf?
    simp only [hparsed, hignored, hname, Option.filter_some, hclass, ↓reduceIte, Option.isSome_some,
      Options.skipReason?, Bool.or_self, Option.isSome_none, Bool.false_eq_true, Option.bind_some]
    rfl
  have hsubset := hindexed.entries
  rw [hdecl, TypeIndex.indexedOf, hentry] at hsubset
  have hq : v.ctx.scopes.qualifiedName head.name = v.ctx.scopes.within (Text.trim head.name) := by
    unfold Scopes.qualifiedName Text.trimmed?
    rw [hblank]
    rfl
  rw [show Text.trim head.name = head.name from htrim, hindexed.within] at hq
  exact ⟨_, hsubset (List.mem_append_left _ (List.mem_singleton_self _)), rfl, hq.symm, rfl⟩

/-! ## Bindings and classes -/

/-- What a binding says of its base, and when the class record of the base says the same. -/
theorem binding_of_mem_records (hr : r ∈ (finalState o u).records.toList)
    (hkind : r.kind = .inherit) : r.baseTypes = [r.name] ∧
    (∃ e ∈ TypeIndex.indexed o [] u.decls, e.qualifiedName = r.name ∧ e.annotated = true) ∧
    ((∃ c ∈ (finalState o u).records.toList, c.kind = .classType ∧ c.qualifiedName = r.name ∧
        c.scriptName = r.scriptName) ↔
      ∃ c e, ((visits (Context.ofUnit o u) u.decls).filterMap (·.exportedClass?)).find?
          (·.qualifiedName == r.name) = some c ∧
        (TypeIndex.indexed o [] u.decls).find? (·.qualifiedName == r.name) = some e ∧
        c.scriptName = e.scriptName) := by
  rw [finalState_eq_runVisits] at hr ⊢
  obtain ⟨v, hv, hadds, -⟩ := adds_of_mem_records hr
  obtain ⟨head, traits, members, a, -, -, -, e, he, hannotated, rfl⟩ :=
    Visit.mem_bindings_iff.mp (hadds.inherit hkind)
  have hentry := TypeIndex.mem_entries_of_mem_ancestry he
  rw [index_of_mem_visits hv] at hentry
  obtain ⟨first, hfirst, hfirstName⟩ := TypeIndex.scriptName_of_mem_entries hentry
  obtain ⟨k, hk, hkName, hkAnnotated⟩ :=
    TypeIndex.exists_annotated_of_mem_entries hentry hannotated
  refine ⟨rfl, ⟨k, hk, hkName, hkAnnotated⟩, ?_⟩
  refine (exists_class_iff _ e.qualifiedName (fun c => c.scriptName = e.scriptName)).trans ?_
  constructor
  · rintro ⟨c, hfind, hc⟩
    exact ⟨c, first, hfind, hfirst, hc.trans hfirstName⟩
  · rintro ⟨c, e', hfind, hfirst', hc⟩
    cases Option.some.inj (hfirst.symm.trans hfirst')
    exact ⟨c, hfind, hc.trans hfirstName.symm⟩

/-- A class is bound to the exported types that its public bases mean. -/
theorem exists_binding_of_lookup? (hv : v ∈ visits (Context.ofUnit o u) u.decls)
    (hc : v.exportedClass? = some c) (hbase : base ∈ v.decl.bases)
    (hpublic : base.access.isPublic = true)
    (he : v.ctx.index.lookup? base.name v.ctx.scopes.path = some e)
    (hannotated : e.annotated = true) (hne : e.qualifiedName ≠ c.qualifiedName) :
    ∃ r ∈ (finalState o u).records.toList, r.kind = .inherit ∧
      r.qualifiedName = c.qualifiedName ++ " : " ++ e.qualifiedName := by
  have hentry := TypeIndex.mem_of_lookup? he
  rw [index_of_mem_visits hv] at hentry
  have hblank := TypeIndex.isBlankText_of_mem_entries hentry
  obtain ⟨a, head, hbinding⟩ := Visit.exists_mem_bindings hc hbase hpublic he hannotated hne
  have hmem := identity_mem_runVisits hv (fun s =>
    Visit.identity_mem_run_of_mem_bindings hbinding (isValid_inheritRecord hblank _ _ _) s) {}
  rw [finalState_eq_runVisits]
  obtain ⟨r, hr, hid⟩ := ((sound_runVisits _).identities _).mp hmem
  exact ⟨r, hr, congrArg Identity.kind hid, congrArg Identity.qualifiedName hid⟩

/-- A class is bound to the types that it spells out as public bases, if the index exports them. -/
theorem exists_binding (hv : v ∈ visits (Context.ofUnit o u) u.decls)
    (hc : v.exportedClass? = some c) (hbase : base ∈ v.decl.bases)
    (hpublic : base.access.isPublic = true) {k : TypeEntry}
    (hk : k ∈ TypeIndex.indexed o [] u.decls) (hannotated : k.annotated = true)
    (hspelled : Text.spelling base.name = k.qualifiedName) (hne : k.qualifiedName ≠ c.qualifiedName) :
    ∃ r ∈ (finalState o u).records.toList, r.kind = .inherit ∧
      r.qualifiedName = c.qualifiedName ++ " : " ++ k.qualifiedName := by
  obtain ⟨e, hfind, he, hq⟩ := TypeIndex.find?_of_mem_indexed hk hannotated
  have hlookup : v.ctx.index.lookup? base.name v.ctx.scopes.path = some e := by
    rw [index_of_mem_visits hv]
    exact TypeIndex.lookup?_of_find? (hspelled.symm ▸ hfind) _
  rw [← hq] at hne ⊢
  exact exists_binding_of_lookup? hv hc hbase hpublic hlookup he hne

end Analysis

open Analysis

/-- **Classes and bindings.** In the result of an accepted unit, a binding names a type that some
declaration in the index exports, and its class record is there with the same script name exactly if
the first exported and the first indexed declaration of the type have the same one. Each class
record was exported at a visit, and there the class is bound to each other type that it spells out as
a public base and that the index knows to be exported. The index knows every exported class that is
not also marked to be ignored. -/
theorem bindings_agree_with_classes (o : Options) (u : TranslationUnit)
    (haccepted : u.check o = .ok ()) :
    let indexed := TypeIndex.indexed o [] u.decls
    let walked := visits (Context.ofUnit o u) u.decls
    ∃ result, analyze o u = .ok result ∧
      (∀ r ∈ result.records, r.kind = .inherit →
        r.baseTypes = [r.name] ∧
        (∃ e ∈ indexed, e.qualifiedName = r.name ∧ e.annotated = true) ∧
        ((∃ c ∈ result.records, c.kind = .classType ∧ c.qualifiedName = r.name ∧
            c.scriptName = r.scriptName) ↔
          ∃ c e, (walked.filterMap (·.exportedClass?)).find? (·.qualifiedName == r.name) = some c ∧
            indexed.find? (·.qualifiedName == r.name) = some e ∧ c.scriptName = e.scriptName)) ∧
      (∀ c ∈ result.records, c.kind = .classType → ∃ v ∈ walked, v.exportedClass? = some c) ∧
      (∀ v ∈ walked, ∀ c, v.exportedClass? = some c →
        ∀ base ∈ v.decl.bases, base.access.isPublic = true →
        ∀ e ∈ indexed, e.annotated = true → Text.spelling base.name = e.qualifiedName →
        e.qualifiedName ≠ c.qualifiedName →
        ∃ r ∈ result.records, r.kind = .inherit ∧
          r.qualifiedName = c.qualifiedName ++ " : " ++ e.qualifiedName) ∧
      (∀ v ∈ walked, ∀ c, v.exportedClass? = some c → Text.trim v.decl.name = v.decl.name →
        (parseAnnotations o.marker v.decl.annotations).ignored = false →
        ∃ e ∈ indexed, e.annotated = true ∧ e.qualifiedName = c.qualifiedName ∧
          e.scriptName = c.scriptName) := by
  intro indexed walked
  refine ⟨_, analyze_of_check haccepted, ?_, ?_, ?_, ?_⟩
  · intro r hr hkind
    exact binding_of_mem_records hr hkind
  · intro c hc hkind
    rw [finalState_eq_runVisits] at hc
    exact exists_visit_of_class hc hkind
  · intro v hv c hc base hbase hpublic e he hannotated hspelled hne
    exact exists_binding hv hc hbase hpublic he hannotated hspelled hne
  · intro v hv c hc htrim hignored
    exact exists_indexed_of_exportedClass? hv hc htrim hignored

/-- A class is bound to an exported base that has an alias. -/
theorem bindings_agree_with_classes_aliased_base :
    let base := Decl.record { name := "Base", annotations := ["lua_export_class,alias=Root"] } {} []
    let hero := Decl.record { name := "Hero", annotations := ["lua_export_class"] }
      { bases := [{ name := "Base" }] } []
    ∃ result, analyze {} { filePath := "hero.h", decls := [base, hero] } = .ok result ∧
      ∃ r ∈ result.records, r.kind = .inherit ∧ r.qualifiedName = "Hero" ++ " : " ++ "Base" := by
  intro base hero
  let u : TranslationUnit := { filePath := "hero.h", decls := [base, hero] }
  have haccepted : u.check {} = .ok () := TranslationUnit.check_default (by decide) rfl
  obtain ⟨result, hresult, -, -, hbound, -⟩ := bindings_agree_with_classes {} u haccepted
  refine ⟨result, hresult, ?_⟩
  let v : Visit := ⟨Context.ofUnit {} u, hero⟩
  have hv : v ∈ visits (Context.ofUnit {} u) u.decls :=
    List.mem_append_right _ (List.mem_append_left _ List.mem_cons_self)
  have hdirective : v.verdict.directive = some ⟨.classType, {}⟩ := by decide +kernel
  have hc : v.exportedClass? = some (v.ctx.classRecord hero.header { bases := [{ name := "Base" }] }
      [] ⟨.classType, {}⟩) := by
    unfold Visit.exportedClass?
    rw [hdirective]
    exact if_pos (by decide +kernel)
  obtain ⟨r, hr, hkind, hq⟩ := hbound v hv _ hc { name := "Base" } List.mem_cons_self rfl _
    List.mem_cons_self rfl (by decide) (by decide +kernel)
  have howner : (v.ctx.classRecord hero.header { bases := [{ name := "Base" }] } []
      ⟨.classType, {}⟩).qualifiedName = "Hero" := by decide +kernel
  rw [howner] at hq
  exact ⟨r, hr, hkind, hq⟩

end ScriptExport
