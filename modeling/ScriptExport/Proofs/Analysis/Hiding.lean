import ScriptExport.Proofs.Analysis.Derivation
import ScriptExport.Proofs.Analysis.Exclusion

/-!
# Which of two inherited members is kept

A class takes the members of its unexported bases in depth-first order of the base lists, and a key goes
to the first place that asks for it. Whether one base derives from the other (`TypeIndex.Derives`, which
the search decides) has no part in that; it only decides whether the later member is reported. So if a
class lists a base before a type that derives from it, the member of the base is kept, and the one of the
derived type is reported as a duplicate.
-/

namespace ScriptExport

namespace Analysis

/-! ## Reported duplicates -/

/-- The diagnostics about members that reach a type more than once. -/
def duplicates (ds : List Diagnostic) : List Diagnostic :=
  ds.filter (·.kind = .duplicateMember)

theorem duplicates_append (ds es : List Diagnostic) :
    duplicates (ds ++ es) = duplicates ds ++ duplicates es :=
  List.filter_append ..

/-- The duplicates that were reported so far. -/
def State.duplicates (s : State) : List Diagnostic :=
  Analysis.duplicates s.diagnostics.toList

namespace State

theorem duplicates_report (d : Diagnostic) (s : State) :
    (s.report d).duplicates = s.duplicates ++ Analysis.duplicates [d] := by
  unfold State.duplicates State.report State.log State.note
  rw [← duplicates_append, Array.toList_push]

/-- Reporting appends what is about duplicates. -/
theorem duplicates_reportAll (ds : List Diagnostic) (s : State) :
    (s.reportAll ds).duplicates = s.duplicates ++ Analysis.duplicates ds := by
  unfold State.reportAll
  induction ds generalizing s with
  | nil => exact (List.append_nil _).symm
  | cons d ds ih =>
    rw [List.foldl_cons, ih, duplicates_report, List.append_assoc, ← duplicates_append]
    rfl

/-- Reports of another kind are no duplicates. -/
theorem duplicates_reportAll_of_ne {ds : List Diagnostic} (h : ∀ d ∈ ds, d.kind ≠ .duplicateMember)
    (s : State) : (s.reportAll ds).duplicates = s.duplicates := by
  have hnone : Analysis.duplicates ds = [] :=
    List.filter_eq_nil_iff.mpr fun d hd => by simpa using h d hd
  rw [duplicates_reportAll, hnone, List.append_nil]

theorem duplicates_report_of_ne {d : Diagnostic} (h : d.kind ≠ .duplicateMember) (s : State) :
    (s.report d).duplicates = s.duplicates := by
  have hone : ∀ e ∈ [d], e.kind ≠ .duplicateMember := List.forall_mem_singleton.mpr h
  exact duplicates_reportAll_of_ne hone s

@[simp] theorem duplicates_emit (r : ExportRecord) (s : State) :
    (s.emit r).duplicates = s.duplicates := by
  unfold State.emit
  split
  · exact duplicates_report_of_ne (by unfold invalidRecord; simp) s
  · split <;> rfl

@[simp] theorem duplicates_useType (h : Header) (t : TypeRef) (s : State) :
    (s.useType h t).duplicates = s.duplicates := by
  unfold State.useType
  dsimp only
  split
  · rfl
  · exact duplicates_report_of_ne (by unfold unresolvedType; simp) s

@[simp] theorem duplicates_useTypes (h : Header) (ts : List TypeRef) (s : State) :
    (s.useTypes h ts).duplicates = s.duplicates := by
  unfold State.useTypes
  induction ts generalizing s with
  | nil => rfl
  | cons t ts ih => exact (ih (s.useType h t)).trans (s.duplicates_useType h t)

/-- Problems with annotations are no duplicates. -/
theorem duplicates_issues (h : Header) (issues : List DirectiveIssue) (s : State) :
    (s.reportAll (issueDiagnostics h issues)).duplicates = s.duplicates := by
  refine duplicates_reportAll_of_ne (fun d hd => ?_) s
  obtain ⟨issue, -, rfl⟩ := List.mem_map.mp hd
  cases issue <;> exact DiagnosticKind.noConfusion

theorem duplicates_inapplicable (kind : DirectiveKind) (d : Decl) (s : State) :
    (s.report (inapplicable kind d)).duplicates = s.duplicates :=
  duplicates_report_of_ne (by unfold inapplicable; simp) s

@[simp] theorem duplicates_visitMember (marker : String) (d : Decl) (s : State) :
    (s.visitMember marker d).duplicates = s.duplicates := by
  unfold State.visitMember
  split
  · dsimp only
    have hissues := duplicates_issues d.header (parseAnnotations marker d.annotations).issues
      (s.log (.visited d.kindText d.name))
    split
    · split
      · exact hissues
      · exact (duplicates_inapplicable _ _ _).trans hissues
    · exact hissues
  · rfl

@[simp] theorem duplicates_visit (ctx : Context) (d : Decl) (s : State) :
    (s.visit ctx d).duplicates = s.duplicates := by
  unfold State.visit
  dsimp only
  have hissues := duplicates_issues d.header (parseAnnotations ctx.options.marker d.annotations).issues
    (s.log (.visited d.kindText d.name))
  split
  · exact hissues
  · exact hissues
  · exact (duplicates_inapplicable _ _ _).trans hissues
  · exact hissues

@[simp] theorem duplicates_bindBases (ctx : Context) (h : Header) (owner : String)
    (bases : List TypeEntry) (s : State) :
    (s.bindBases ctx h owner bases).duplicates = s.duplicates := by
  unfold State.bindBases
  induction bases generalizing s with
  | nil => rfl
  | cons e bases ih => exact (ih _).trans (s.duplicates_emit _)

theorem duplicates_foldl_visitMember (marker : String) (decls : List Decl) (s : State) :
    (decls.foldl (fun s d => s.visitMember marker d) s).duplicates = s.duplicates := by
  induction decls generalizing s with
  | nil => rfl
  | cons d decls ih => exact (ih _).trans (s.duplicates_visitMember marker d)

end State

theorem Place.duplicates_prepare (ctx : Context) (owner : Owner) (p : Place) (x : Surface) :
    (p.prepare ctx owner x).state.duplicates = x.state.duplicates := by
  unfold Place.prepare
  split
  · exact State.duplicates_useTypes _ _ _
  · rfl
  · exact State.duplicates_useTypes _ _ _
  · dsimp only
    split
    · exact State.duplicates_useType _ _ _
    · exact State.duplicates_useType _ _ _
  · rfl

/-! ## Places that ask for the same key -/

/-- The place that has the key after the given ones. -/
def holder? (ctx : Context) (owner : Owner) (ps : List Place) (key : String) : Option Place :=
  ps.find? fun p => p.key? ctx owner == some key

/-- What is reported at the place after the given ones. -/
def Place.clash? (ctx : Context) (owner : Owner) (before : List Place) (p : Place) :
    Option Diagnostic := do
  let r ← p.candidate? ctx owner {}
  let holder ← holder? ctx owner before (surfaceKey r)
  Analysis.clash? ctx.index owner r holder.source p.source

/-- What is reported at places after the given ones, in order. -/
def clashes (ctx : Context) (owner : Owner) (before : List Place) : List Place → List Diagnostic
  | [] => []
  | p :: ps => (p.clash? ctx owner before).toList ++ clashes ctx owner (before ++ [p]) ps

/-- The surface has gone through the places. -/
def Surface.After (ctx : Context) (owner : Owner) (before : List Place) (x : Surface) : Prop :=
  ∀ key, x.claimed.get? key = (holder? ctx owner before key).map (·.source)

section Clashes

variable {ctx : Context} {owner : Owner} {before : List Place} {p : Place}

theorem holder?_concat (key : String) : holder? ctx owner (before ++ [p]) key =
    (holder? ctx owner before key).or (if p.key? ctx owner = some key then some p else none) := by
  unfold holder?
  rw [List.find?_append, List.find?_singleton]
  simp only [beq_iff_eq]

/-- A candidate clashes with the place that holds its key. -/
theorem clash?_eq_of_candidate? {constants : OrderedMap String Int64} {r : ExportRecord}
    (hr : p.candidate? ctx owner constants = some r) : p.clash? ctx owner before =
      (holder? ctx owner before (surfaceKey r)).bind fun holder =>
        Analysis.clash? ctx.index owner r holder.source p.source := by
  obtain ⟨value, hvalue⟩ := candidate?_congr hr {}
  unfold Place.clash?
  rw [hvalue]
  rfl

/-- What is reported about a key that is taken is a duplicate. -/
theorem duplicates_clash? (index : TypeIndex) (owner : Owner) (r : ExportRecord)
    (earlier later : MemberSource) :
    duplicates (Analysis.clash? index owner r earlier later).toList =
      (Analysis.clash? index owner r earlier later).toList := by
  unfold Analysis.clash?
  split
  · split <;> rfl
  · split <;> rfl
  · rfl

/-- One place: the first that asks for a key has it from then on, and later ones may be reported. -/
theorem Surface.After.addSlot {x : Surface} (hx : x.After ctx owner before) :
    (x.addSlot ctx owner p.source p.member p.slot).After ctx owner (before ++ [p]) ∧
      (x.addSlot ctx owner p.source p.member p.slot).state.duplicates =
        x.state.duplicates ++ (p.clash? ctx owner before).toList := by
  have hprepared := p.duplicates_prepare ctx owner x
  have hclaimed : (p.prepare ctx owner x).claimed = x.claimed := (p.quiet_prepare ctx owner x).claimed
  rw [addSlot_eq]
  generalize p.prepare ctx owner x = z at hprepared hclaimed
  cases hr : p.candidate? ctx owner x.state.constants with
  | none =>
    have hnone : p.candidate? ctx owner {} = none := by
      cases hempty : p.candidate? ctx owner {} with
      | none => rfl
      | some r =>
        obtain ⟨value, hvalue⟩ := candidate?_congr hempty x.state.constants
        cases hr.symm.trans hvalue
    constructor
    · intro key
      have hkey : p.key? ctx owner ≠ some key := by
        unfold Place.key?
        rw [hnone]
        simp
      rw [holder?_concat, if_neg hkey, Option.or_none, hclaimed]
      exact hx key
    · unfold Place.clash?
      rw [hnone, hprepared]
      exact (List.append_nil _).symm
  | some r =>
    have hkey := key?_of_candidate? hr
    rw [clash?_eq_of_candidate? hr]
    unfold Surface.add
    dsimp only
    rw [hclaimed, hx]
    cases hholder : holder? ctx owner before (surfaceKey r) with
    | none =>
      constructor
      · intro key
        dsimp only [Option.map_none]
        rw [OrderedMap.get?_insert, holder?_concat, hkey, hx]
        by_cases hsame : key = surfaceKey r
        · subst hsame
          simp [hholder]
        · have hother : surfaceKey r ≠ key := fun heq => hsame heq.symm
          simp [hsame, hother]
      · dsimp only [Option.map_none]
        rw [State.duplicates_emit]
        cases p.source <;> exact hprepared.trans (List.append_nil _).symm
    | some holder =>
      constructor
      · intro key
        rw [holder?_concat, hkey]
        refine (congrArg (·.get? key) hclaimed).trans ((hx key).trans ?_)
        by_cases hsame : surfaceKey r = key
        · subst hsame
          rw [hholder]
          rfl
        · rw [if_neg (by simpa using hsame), Option.or_none]
      · refine (State.duplicates_reportAll _ _).trans ?_
        rw [duplicates_clash?, hprepared]
        rfl

theorem Surface.after_noteMembers (marker : String) (decls : List Decl) (s : State) :
    (Surface.noteMembers marker owner decls { state := s }).After ctx owner [] :=
  fun _ => rfl

/-- All places: what is reported is what each place reports after those before it. -/
theorem duplicates_foldl_addSlot (ps : List Place) {x : Surface} (hx : x.After ctx owner before) :
    (ps.foldl (fun x p => x.addSlot ctx owner p.source p.member p.slot) x).state.duplicates =
      x.state.duplicates ++ clashes ctx owner before ps := by
  induction ps generalizing before x with
  | nil => exact (List.append_nil _).symm
  | cons p ps ih =>
    obtain ⟨hafter, hreported⟩ := hx.addSlot (p := p)
    rw [List.foldl_cons, ih hafter, hreported, List.append_assoc]
    rfl

end Clashes

/-! ## Classes -/

/-- The places of a base that is flattened onto a type. -/
def basePlaces (marker : String) (owner : Owner) (e : TypeEntry) : List Place :=
  places marker owner (.inherited e.qualifiedName) e.decl.children

theorem source_of_mem_places {marker : String} {owner : Owner} {source : MemberSource}
    {decls : List Decl} {p : Place} (hp : p ∈ places marker owner source decls) : p.source = source := by
  obtain ⟨_, -, rfl⟩ := List.mem_map.mp hp
  rfl

/-- Candidates are plain records. -/
theorem isPlain_of_candidate? {ctx : Context} {owner : Owner} {constants : OrderedMap String Int64}
    {p : Place} {r : ExportRecord} (h : p.candidate? ctx owner constants = some r) :
    r.kind.isPlain = true := by
  unfold Place.candidate? at h
  split at h
  · cases h
    rfl
  · next haction _ =>
    cases h
    unfold Place.action at haction
    split at haction
    · exact isPlain_of_memberAction haction
    · cases haction
  · split at h
    · cases h
      rfl
    · cases h
      rfl
  · cases h

theorem surfaceKey_congr {r r' : ExportRecord} (hname : r'.name = r.name)
    (hidentity : r'.identity = r.identity) : surfaceKey r' = surfaceKey r := by
  obtain ⟨hkind, -, hparameters, hconst⟩ := Identity.mk.inj hidentity
  unfold surfaceKey ExportRecord.memberKey
  rw [hkind, hname, hparameters, hconst]

section Classes

variable {v : Visit} {head : Header} {traits : RecordTraits} {members : List Decl} {a : Directive}
  (hdecl : v.decl = .record head traits members) (hdirective : v.verdict.directive = some a)
  (hhead : Text.isBlankText head.name = false)
  {flattened : List TypeEntry}
  (hflattened : v.ctx.index.DepthFirst [(v.ctx.classOwner head traits members a).qualifiedName]
    v.ctx.scopes.path traits.bases flattened)
include hdecl hdirective hhead hflattened

/-- The duplicates that the visit to a class reports: properties that its own members start twice, and
then places that ask for a key that is taken. -/
theorem Visit.duplicates_run_class (s : State) :
    let inside := v.ctx.enterClass head a
    let owner := v.ctx.classOwner head traits members a
    (v.run s).duplicates = s.duplicates
      ++ duplicates (planProperties owner.qualifiedName
        (members.map (markMember v.ctx.options.marker))).diagnostics
      ++ clashes inside owner [] (classPlaces v.ctx.options.marker owner members flattened) := by
  intro inside owner
  rw [Visit.run_class hdecl hdirective hhead]
  unfold exportClassMembers
  rw [classSurface_eq, ← TypeIndex.depthFirst_iff.mp hflattened,
    duplicates_foldl_addSlot _ (Surface.after_noteMembers _ _ _)]
  unfold Surface.noteMembers Surface.onState
  rw [State.duplicates_reportAll, State.duplicates_foldl_visitMember, State.duplicates_bindBases,
    State.duplicates_emit, State.duplicates_visit]

/-- What the first place of a class with a key offers is in the result after the visit, unless another
record has its identity: one from before, or one with the same qualified name and another name. -/
theorem Visit.exists_record_of_first {s : State} (hs : s.Sound) {before after : List Place}
    {place : Place} {r : ExportRecord}
    (hplaces : classPlaces v.ctx.options.marker (v.ctx.classOwner head traits members a) members
      flattened = before ++ place :: after)
    (hr : place.candidate? (v.ctx.enterClass head a) (v.ctx.classOwner head traits members a)
      (learnAll (v.ctx.enterClass head a) (v.ctx.classOwner head traits members a) s.constants before)
        = some r)
    (hfirst : ∀ q ∈ before, q.key? (v.ctx.enterClass head a)
      (v.ctx.classOwner head traits members a) ≠ some (surfaceKey r))
    (hname : Text.isBlankText r.name = false) :
    ∃ r' ∈ (v.run s).records.toList, r'.identity = r.identity ∧
      (r'.name = r.name → r' ∉ s.records.toList → r' = r) := by
  let inside := v.ctx.enterClass head a
  let owner := v.ctx.classOwner head traits members a
  let offered := firstOfEachKey (candidates inside owner s.constants (before ++ place :: after))
  let ancestry := v.ctx.index.ancestry [owner.qualifiedName] v.ctx.scopes.path traits.bases
  let bound := ((s.visit v.ctx v.decl).emit (v.ctx.classRecord head traits members a)).bindBases
    inside head owner.qualifiedName (ancestry.filter (·.annotated))
  have hrun := Visit.run_class hdecl hdirective hhead s
  obtain ⟨-, hresult⟩ := offered_classSurface v.ctx head traits members a
    ((s.visit v.ctx v.decl).emit (v.ctx.classRecord head traits members a))
  rw [← TypeIndex.depthFirst_iff.mp hflattened, hplaces, State.constants_emit, State.constants_visit]
    at hresult
  have hoffered : r ∈ offered := mem_firstOfEachKey_candidates hr hfirst after
  -- the visit adds the class, its bindings and what was offered
  have hbound : s.Changes (fun q => q.kind.isPlain = false ∨ q ∈ offered) bound := by
    have hclass : (v.ctx.classRecord head traits members a).kind.isPlain = false := rfl
    refine (changes_visit s v.ctx v.decl).trans ((changes_emit _ (.inl hclass)).trans ?_)
    refine State.Changes.foldl (fun s e _ => changes_emit s ?_) _
    exact .inl rfl
  have hchanges := hbound.trans (State.Changes.foldl (fun s q hq => changes_emit s (.inr hq)) bound)
  have hidentity := identity_mem_foldl_emit hoffered (isValid_of_candidate? hr hname) bound
  obtain ⟨r', hr', heq, hadded⟩ := hs.exists_record hchanges hidentity
  have hrecords : (v.run s).records = _ := (congrArg State.records hrun).trans hresult.records
  refine ⟨r', hrecords ▸ hr', heq, fun hsame hnew => ?_⟩
  rcases hadded hnew with hkind | hmem
  · have hplain := isPlain_of_candidate? hr
    rw [← (Identity.mk.inj heq).1, hkind] at hplain
    cases hplain
  · exact List.inj_on_of_nodup_map (nodup_firstOfEachKey _) hmem hoffered (surfaceKey_congr hsame heq)

end Classes

/-! ## Two types with the same key -/

/-- One of the places asks for the key. -/
def Asks (ctx : Context) (owner : Owner) (key : String) (ps : List Place) : Prop :=
  ∃ p ∈ ps, p.key? ctx owner = some key

section Keys

variable {ctx : Context} {owner : Owner} {key : String} {ps qs : List Place} {p : Place}

theorem holder?_append : holder? ctx owner (ps ++ qs) key =
    (holder? ctx owner ps key).or (holder? ctx owner qs key) :=
  List.find?_append

theorem holder?_eq_none_iff : holder? ctx owner ps key = none ↔ ¬ Asks ctx owner key ps := by
  unfold holder? Asks
  simp

theorem Asks.exists_holder (h : Asks ctx owner key ps) : ∃ p, holder? ctx owner ps key = some p := by
  cases hholder : holder? ctx owner ps key with
  | none => exact absurd h (holder?_eq_none_iff.mp hholder)
  | some p => exact ⟨p, rfl⟩

theorem key?_of_holder? (h : holder? ctx owner ps key = some p) : p.key? ctx owner = some key := by
  simpa using List.find?_some h

/-- The holder of a key is the first place that asks for it. -/
theorem split_of_holder? (h : holder? ctx owner ps key = some p) : ∃ before after,
    ps = before ++ p :: after ∧ ∀ q ∈ before, q.key? ctx owner ≠ some key := by
  obtain ⟨-, before, after, hsplit, hbefore⟩ := List.find?_eq_some_iff_append.mp h
  exact ⟨before, after, hsplit, fun q hq => by simpa using hbefore q hq⟩

end Keys

/-- Of two inherited members with one key the later is reported if both come from the same base, or if
the base of the earlier one does not derive from that of the later one. -/
theorem isSome_clash?_inherited (index : TypeIndex) (owner : Owner) (r : ExportRecord)
    (earlier later : String) :
    (Analysis.clash? index owner r (.inherited earlier) (.inherited later)).isSome = true ↔
      earlier = later ∨ ¬ index.Derives earlier later := by
  rw [← TypeIndex.derivesFrom_iff]
  unfold Analysis.clash?
  dsimp only
  split
  · next h => simpa using h
  · next h => simpa using h

/-- A list with one of two types in it can be cut before the first of them. -/
theorem exists_first_met {l : List TypeEntry} {x : TypeEntry} (hx : x ∈ l) (y : TypeEntry) :
    ∃ earlier first later, l = earlier ++ first :: later ∧ x ∉ earlier ∧ y ∉ earlier ∧
      (first = x ∨ first = y) := by
  classical
  have hmet : (l.find? fun e => decide (e = x ∨ e = y)).isSome = true :=
    List.find?_isSome.mpr ⟨x, hx, by simp⟩
  obtain ⟨first, hfound⟩ := Option.isSome_iff_exists.mp hmet
  obtain ⟨hfirst, earlier, later, hsplit, hearlier⟩ := List.find?_eq_some_iff_append.mp hfound
  refine ⟨earlier, first, later, hsplit, fun hmem => ?_, fun hmem => ?_, of_decide_eq_true hfirst⟩
  · simpa using hearlier x hmem
  · simpa using hearlier y hmem

section TwoTypes

variable {ctx : Context} {owner : Owner} {marker key : String} {members : List Decl}
  {flattened earlier later : List TypeEntry} {x y first : TypeEntry}
  (hown : ¬ Asks ctx owner key (places marker owner .own members))
  (honly : ∀ e ∈ flattened, Asks ctx owner key (basePlaces marker owner e) → e = x ∨ e = y)
include hown honly

/-- What asks for the key comes from one of the two types. -/
theorem source_of_asking {p : Place} (hp : p ∈ classPlaces marker owner members flattened)
    (hkey : p.key? ctx owner = some key) :
    ∃ e, (e = x ∨ e = y) ∧ p.source = .inherited e.qualifiedName := by
  rcases List.mem_append.mp hp with hp | hp
  · exact absurd ⟨p, hp, hkey⟩ hown
  · obtain ⟨e, he, hp⟩ := List.mem_flatMap.mp hp
    exact ⟨e, honly e he ⟨p, hp, hkey⟩, source_of_mem_places hp⟩

/-- The type that is met first has the key. -/
theorem holder?_classPlaces (hsplit : flattened = earlier ++ first :: later) (hx : x ∉ earlier)
    (hy : y ∉ earlier) (hfirst : Asks ctx owner key (basePlaces marker owner first)) :
    holder? ctx owner (classPlaces marker owner members flattened) key =
      holder? ctx owner (basePlaces marker owner first) key := by
  have hearlier : ¬ Asks ctx owner key (earlier.flatMap (basePlaces marker owner)) := by
    rintro ⟨p, hp, hkey⟩
    obtain ⟨e, he, hp⟩ := List.mem_flatMap.mp hp
    have hmem : e ∈ flattened := hsplit ▸ List.mem_append_left _ he
    rcases honly e hmem ⟨p, hp, hkey⟩ with rfl | rfl
    · exact hx he
    · exact hy he
  have hclass : classPlaces marker owner members flattened =
      places marker owner .own members ++ (earlier.flatMap (basePlaces marker owner)
        ++ (basePlaces marker owner first ++ later.flatMap (basePlaces marker owner))) := by
    rw [hsplit, ← List.flatMap_cons, ← List.flatMap_append]
    rfl
  obtain ⟨p, hp⟩ := hfirst.exists_holder
  rw [hclass, holder?_append, holder?_append, holder?_append, holder?_eq_none_iff.mpr hown,
    holder?_eq_none_iff.mpr hearlier, hp]
  rfl

/-- What is reported after the type that is met first: further members of that type, and if it is the
base of the two and does not derive from the other one in turn, the members of the other one. -/
theorem isSome_clash?_iff (hderives : ctx.index.Derives x.qualifiedName y.qualifiedName)
    (hne : x.qualifiedName ≠ y.qualifiedName) (hfirst : first = x ∨ first = y)
    {holder : Place}
    (hholder : holder? ctx owner (classPlaces marker owner members flattened) key = some holder)
    (hsource : holder.source = .inherited first.qualifiedName) {before after : List Place} {p : Place}
    (hplaces : classPlaces marker owner members flattened = before ++ p :: after)
    (hkey : p.key? ctx owner = some key) :
    (p.clash? ctx owner before).isSome = true ↔ Asks ctx owner key before ∧
      (p.source = .inherited first.qualifiedName ∨
        first = y ∧ ¬ ctx.index.Derives y.qualifiedName x.qualifiedName) := by
  obtain ⟨r, hr, rfl⟩ := Option.map_eq_some_iff.mp hkey
  rw [clash?_eq_of_candidate? hr]
  by_cases hasks : Asks ctx owner (surfaceKey r) before
  · -- the key is taken, and the first place of the class that asks for it has it
    obtain ⟨q, hq⟩ := hasks.exists_holder
    have hsame : q = holder := by
      rw [hplaces, holder?_append, hq] at hholder
      exact Option.some.inj hholder
    have hmem : p ∈ classPlaces marker owner members flattened := by
      rw [hplaces]
      exact List.mem_append_right _ List.mem_cons_self
    obtain ⟨e, he, hlater⟩ := source_of_asking hown honly hmem hkey
    have hsources : p.source = .inherited first.qualifiedName ↔
        e.qualifiedName = first.qualifiedName := by
      rw [hlater]
      simp
    rw [hq, Option.bind_some, hsame, hsource, hsources, hlater, isSome_clash?_inherited]
    rcases hfirst with rfl | rfl
    · rcases he with rfl | rfl
      · simp [hasks]
      · have hother : first ≠ e := fun heq => hne (heq ▸ rfl)
        simp [hasks, hderives, hne, hne.symm, hother]
    · rcases he with rfl | rfl
      · simp [hasks, hne, hne.symm]
      · simp [hasks]
  · rw [holder?_eq_none_iff.mpr hasks]
    simp [hasks]

end TwoTypes

end Analysis

open Analysis

/-- **Members are hidden in the order of the bases.** If two unexported types that are flattened onto a
class both have a member with a key that nothing else of the class has, and one of the types derives from
the other, the class keeps the member of the type that is met first on the way through its bases, depth
first. Members that come later are reported if they are of that same type, or if the type that was met
first is the base of the two and does not derive from the other one as well. -/
theorem hidden_by_first_met_base (o : Options) (u : TranslationUnit) (h : u.check o = .ok ()) :
    ∃ result, analyze o u = .ok result ∧
      ∀ before v after head traits members a,
        visits (Context.ofUnit o u) u.decls = before ++ v :: after →
        v.decl = .record head traits members → v.decl.directive? o.marker = some a →
        Text.isBlankText head.name = false →
        let inside := v.ctx.enterClass head a
        let owner := v.ctx.classOwner head traits members a
        ∃ flattened,
          (∀ l, v.ctx.index.DepthFirst [owner.qualifiedName] v.ctx.scopes.path traits.bases l ↔
            l = flattened) ∧
          (∃ more, duplicates result.diagnostics = (runVisits before {}).duplicates
            ++ duplicates (planProperties owner.qualifiedName
              (members.map (markMember o.marker))).diagnostics
            ++ clashes inside owner [] (classPlaces o.marker owner members flattened) ++ more) ∧
          ∀ x ∈ flattened, ∀ y ∈ flattened, x ≠ y →
            v.ctx.index.Derives x.qualifiedName y.qualifiedName →
            ∀ key, Asks inside owner key (basePlaces o.marker owner x) →
              Asks inside owner key (basePlaces o.marker owner y) →
              ¬ Asks inside owner key (places o.marker owner .own members) →
              (∀ e ∈ flattened, Asks inside owner key (basePlaces o.marker owner e) →
                e = x ∨ e = y) →
              ∃ earlier first later, flattened = earlier ++ first :: later ∧
                x ∉ earlier ∧ y ∉ earlier ∧ (first = x ∨ first = y) ∧
                (∃ place constants r,
                  holder? inside owner (basePlaces o.marker owner first) key = some place ∧
                  place.candidate? inside owner constants = some r ∧
                  (Text.isBlankText r.name = false →
                    ∃ r' ∈ result.records, r'.identity = r.identity ∧
                      (r'.name = r.name → r' ∉ (runVisits before {}).records.toList → r' = r))) ∧
                ∀ pre p post, classPlaces o.marker owner members flattened = pre ++ p :: post →
                  p.key? inside owner = some key →
                  ((p.clash? inside owner pre).isSome = true ↔ Asks inside owner key pre ∧
                    (p.source = .inherited first.qualifiedName ∨
                      first = y ∧ ¬ v.ctx.index.Derives y.qualifiedName x.qualifiedName)) := by
  refine ⟨_, analyze_of_check h, ?_⟩
  intro before v after head traits members a hvisits hdecl ha hhead inside owner
  have hmarker := marker_of_split hvisits
  have hindex : v.ctx.index = TypeIndex.ofDecls o u.decls :=
    index_of_mem_visits (mem_visits_of_split hvisits)
  have hdirective := directive_of_split hvisits ha
  have hflattened := v.ctx.index.depthFirst_ancestry [owner.qualifiedName] v.ctx.scopes.path
    traits.bases
  have hgrown := extends_of_split hvisits
  refine ⟨_, fun l => TypeIndex.depthFirst_iff, ?_, ?_⟩
  · obtain ⟨more, hmore⟩ := hgrown.diagnostics
    refine ⟨duplicates more, ?_⟩
    have hreported := Visit.duplicates_run_class hdecl hdirective hhead hflattened (runVisits before {})
    rw [hmarker] at hreported
    rw [← hreported, ← hmore, duplicates_append]
    rfl
  · intro x hx y hy hne hderives key hasksX hasksY hown honly
    have hnames : x.qualifiedName ≠ y.qualifiedName := by
      intro heq
      have hentry : ∀ e ∈ (v.ctx.index.ancestry [owner.qualifiedName] v.ctx.scopes.path
          traits.bases).filter (fun e => !e.annotated), v.ctx.index.find? e.qualifiedName = some e :=
        fun e he => TypeIndex.find?_eq_some_of_mem (hindex ▸ TypeIndex.distinct_ofDecls o u.decls)
          (TypeIndex.mem_entries_of_mem_ancestry (List.mem_of_mem_filter he))
      have hfound := hentry x hx
      rw [heq, hentry y hy] at hfound
      exact hne (Option.some.inj hfound).symm
    obtain ⟨earlier, first, later, hsplit, hx', hy', hfirst⟩ := exists_first_met hx y
    have hasks : Asks inside owner key (basePlaces o.marker owner first) := by
      rcases hfirst with rfl | rfl
      · exact hasksX
      · exact hasksY
    obtain ⟨place, hplace⟩ := hasks.exists_holder
    have hholder := (holder?_classPlaces hown honly hsplit hx' hy' hasks).trans hplace
    refine ⟨earlier, first, later, hsplit, hx', hy', hfirst, ?_, ?_⟩
    · obtain ⟨pre, post, hplaces, hpre⟩ := split_of_holder? hholder
      obtain ⟨r, hr, rfl⟩ := Option.map_eq_some_iff.mp (key?_of_holder? hplace)
      obtain ⟨value, hvalue⟩ :=
        candidate?_congr hr (learnAll inside owner (runVisits before {}).constants pre)
      refine ⟨place, _, _, hplace, hvalue, fun hname => ?_⟩
      rw [← hmarker] at hplaces
      obtain ⟨r', hr', hkept⟩ := Visit.exists_record_of_first hdecl hdirective hhead hflattened
        (sound_runVisits before) hplaces hvalue hpre hname
      obtain ⟨new, hrecords, -⟩ := hgrown.records
      exact ⟨r', hrecords ▸ List.mem_append_left new hr', hkept⟩
    · intro pre p post hplaces hkey
      exact isSome_clash?_iff hown honly hderives hnames hfirst hholder
        (source_of_mem_places (List.mem_of_find?_eq_some hplace)) hplaces hkey

/-- A type with a method. -/
def hidingBase : Decl :=
  .record { name := "Y" } {} [.method { name := "f" } { returnType := .builtin "int" }]

/-- A type that derives from it in private and declares the method again. -/
def hidingDerived : Decl :=
  .record { name := "X" } { bases := [{ name := "Y", access := .priv }] }
    [.method { name := "f" } { returnType := .builtin "double", isVirtual := true }]

/-- A class that lists the base before the derived type. -/
def hidingClass : Decl :=
  .record { name := "D", annotations := ["lua_export_class"] }
    { bases := [{ name := "Y" }, { name := "X" }] } []

/-- The three types. -/
def hidingUnit : TranslationUnit :=
  { filePath := "d.h", decls := [hidingBase, hidingDerived, hidingClass] }

/-- The class keeps the method of the base, and the one of the derived type is reported. -/
theorem hidden_by_first_met_base_listed_first :
    hidingUnit.check {} = .ok () ∧
    ∃ result, analyze {} hidingUnit = .ok result ∧
      (∃ r ∈ result.records, r.identity = ⟨.method, "D::f", [], false⟩ ∧
        (r.name = "f" → r.returnType = some "int" ∧ r.isVirtual = false)) ∧
      ∃ d ∈ result.diagnostics, d.kind = .duplicateMember := by
  have haccepted : hidingUnit.check {} = .ok () := TranslationUnit.check_default (by decide) rfl
  refine ⟨haccepted, ?_⟩
  obtain ⟨result, hresult, hclass⟩ := hidden_by_first_met_base {} hidingUnit haccepted
  refine ⟨result, hresult, ?_⟩
  have hvisits : visits (Context.ofUnit {} hidingUnit) hidingUnit.decls =
      [⟨Context.ofUnit {} hidingUnit, hidingBase⟩, ⟨Context.ofUnit {} hidingUnit, hidingDerived⟩]
        ++ ⟨Context.ofUnit {} hidingUnit, hidingClass⟩ :: [] := by rfl
  have hdirective : hidingClass.directive? "lua_export_" = some ⟨.classType, {}⟩ := by rfl
  obtain ⟨flattened, hflattened, ⟨more, hreported⟩, hkeys⟩ :=
    hclass _ _ _ _ _ _ _ hvisits rfl hdirective (by decide)
  have hbases : (TypeIndex.ofDecls {} hidingUnit.decls).DepthFirst ["D"] []
      [{ name := "Y" }, { name := "X" }]
      [⟨hidingBase, "Y", "Y", false, []⟩, ⟨hidingDerived, "X", "X", false, []⟩] := by
    refine @TypeIndex.DepthFirst.enter _ _ _ _ _ ⟨hidingBase, "Y", "Y", false, []⟩ [] _
      ⟨rfl, by rfl, rfl, by decide⟩ (.nil _ _) ?_
    refine @TypeIndex.DepthFirst.enter _ _ _ _ _ ⟨hidingDerived, "X", "X", false, []⟩ [] []
      ⟨rfl, by rfl, rfl, by decide⟩ ?_ (.nil _ _)
    exact .pass (fun e hfollows => by cases hfollows.1) (.nil _ _)
  cases (hflattened _).mp hbases
  have hderives : (Context.ofUnit {} hidingUnit).index.Derives "X" "Y" :=
    .single ⟨⟨hidingDerived, "X", "X", false, []⟩, by rfl, by decide⟩
  have hunrelated : ¬ (Context.ofUnit {} hidingUnit).index.Derives "Y" "X" := by
    intro h
    obtain ⟨parent, ⟨e, hfound, hparent⟩, -⟩ := Relation.TransGen.head'_iff.mp h
    have hentry : (Context.ofUnit {} hidingUnit).index.find? "Y" =
        some ⟨hidingBase, "Y", "Y", false, []⟩ := by rfl
    cases hentry.symm.trans hfound
    cases hparent
  obtain ⟨earlier, first, later, hsplit, hx, hy, -, ⟨place, constants, r, hplace, hr, hkept⟩,
      hclashes⟩ :=
    hkeys ⟨hidingDerived, "X", "X", false, []⟩ (by simp) ⟨hidingBase, "Y", "Y", false, []⟩ (by simp)
      (by simp) hderives "f()" ⟨_, List.mem_cons_self, by rfl⟩ ⟨_, List.mem_cons_self, by rfl⟩
      (by rintro ⟨p, hp, -⟩; cases hp) (by simp)
  -- the base is met first
  obtain ⟨rfl, rfl⟩ : earlier = [] ∧ first = ⟨hidingBase, "Y", "Y", false, []⟩ := by
    cases earlier with
    | nil => exact ⟨rfl, (List.cons.inj hsplit).1.symm⟩
    | cons e earlier => exact absurd ((List.cons.inj hsplit).1 ▸ List.mem_cons_self) hy
  constructor
  · cases hplace
    cases hr
    obtain ⟨r', hr', hidentity, hsame⟩ := hkept (by decide)
    refine ⟨r', hr', hidentity, fun hname => ?_⟩
    have hnone : (runVisits [⟨Context.ofUnit {} hidingUnit, hidingBase⟩,
        ⟨Context.ofUnit {} hidingUnit, hidingDerived⟩] {}).records.toList = [] := by rfl
    rw [hsame hname (hnone ▸ List.not_mem_nil)]
    exact ⟨rfl, rfl⟩
  · obtain ⟨d, hd⟩ := Option.isSome_iff_exists.mp
      ((hclashes [_] _ [] rfl (by rfl)).mpr ⟨⟨_, List.mem_cons_self, by rfl⟩, .inr ⟨rfl, hunrelated⟩⟩)
    have hmem : d ∈ duplicates result.diagnostics := by
      rw [hreported]
      refine List.mem_append_left _ (List.mem_append_right _ ?_)
      exact List.mem_append_right _ (List.mem_append_left _ (Option.mem_toList.mpr hd))
    obtain ⟨hreported, hkind⟩ := List.mem_filter.mp hmem
    exact ⟨d, hreported, of_decide_eq_true hkind⟩

end ScriptExport
