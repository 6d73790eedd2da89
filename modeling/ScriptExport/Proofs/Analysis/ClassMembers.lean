import ScriptExport.Proofs.Analysis.Hiding
import ScriptExport.Proofs.Lists

/-!
# What the members of a class leave in the result

An exported class offers the records of its own members and then those of the members of its bases. Of
the places that ask for one key the first one gets it, and its record is in the result under its
identity (`exists_record_of_first`). So what becomes of an own member is known from the own members
before it and from the state in which the class is met: its record is there unless something before it
bars it (`Bars`).
-/

namespace ScriptExport.Analysis

/-- A visit to an exported class with a usable name. -/
structure ClassVisit where
  visit : Visit
  head : Header
  traits : RecordTraits
  members : List Decl
  directive : Directive
  decl_eq : visit.decl = .record head traits members
  directive_eq : visit.decl.directive? visit.ctx.options.marker = some directive
  usable : Text.isBlankText head.name = false

namespace ClassVisit

/-- The marker of the annotations. -/
def marker (k : ClassVisit) : String :=
  k.visit.ctx.options.marker

/-- The context inside the class. -/
def inside (k : ClassVisit) : Context :=
  k.visit.ctx.enterClass k.head k.directive

/-- The class as the owner of its members. -/
def owner (k : ClassVisit) : Owner :=
  k.visit.ctx.classOwner k.head k.traits k.members k.directive

/-- The places of the own members. -/
def own (k : ClassVisit) : List Place :=
  places k.marker k.owner .own k.members

/-- The types whose members are flattened onto the class. -/
def flattened (k : ClassVisit) : List TypeEntry :=
  (k.visit.ctx.index.ancestry [k.owner.qualifiedName] k.visit.ctx.scopes.path k.traits.bases).filter
    (fun e => !e.annotated)

/-- The places of all the members that go onto the class. -/
def allPlaces (k : ClassVisit) : List Place :=
  classPlaces k.marker k.owner k.members k.flattened

/-- The record of the class. -/
def record (k : ClassVisit) : ExportRecord :=
  k.visit.ctx.classRecord k.head k.traits k.members k.directive

variable (k : ClassVisit)

theorem verdict_eq : k.visit.verdict.directive = some k.directive := by
  rw [← k.directive_eq]
  exact directive_verdict_eq _ _

/-- A class with a usable name is exported. -/
theorem exportedClass?_visit : k.visit.exportedClass? = some k.record := by
  refine Visit.exportedClass?_of_isValid k.decl_eq k.verdict_eq ?_
  rw [isValid_classRecord, k.usable]
  rfl

/-- Every visit that exports a class is a class visit. -/
theorem exists_of_exportedClass? {v : Visit} {c : ExportRecord} (hc : v.exportedClass? = some c) :
    ∃ k : ClassVisit, k.visit = v ∧ k.record = c := by
  obtain ⟨head, traits, members, a, hdecl, hdirective, rfl, hvalid⟩ :=
    Visit.exportedClass?_eq_some hc
  have husable : Text.isBlankText head.name = false := (ExportRecord.isValid_iff.mp hvalid).1
  rw [Visit.verdict, directive_verdict_eq] at hdirective
  exact ⟨⟨v, head, traits, members, a, hdecl, hdirective, husable⟩, rfl, rfl⟩

theorem owner_inside : k.inside.scopes.owner?.getD "" = k.owner.qualifiedName := by
  unfold inside
  rw [(qualifiedName_enterClass k.visit.ctx k.usable k.directive).1]
  rfl

theorem qualifiedName_inside {name : String} (hname : Text.isBlankText name = false) :
    k.inside.scopes.qualifiedName name = k.owner.qualifiedName ++ "::" ++ Text.trim name := by
  unfold inside
  rw [(qualifiedName_enterClass k.visit.ctx k.usable k.directive).2, Text.trimmed?, hname,
    if_neg Bool.false_ne_true]
  rfl

end ClassVisit

/-! ## One place -/

section Places

variable {owner : Owner} {p : Place} {kind : ExportKind} {h : Header} {c : Callable}

/-- A callable member offers its record. -/
theorem candidate?_of_callable (haction : p.action owner = .callable kind h c) (ctx : Context)
    (constants : OrderedMap String Int64) : p.candidate? ctx owner constants =
      some (ctx.callableRecord kind h c p.member.mark.directive) := by
  obtain ⟨source, m, slot⟩ := p
  cases slot with
  | member =>
    unfold Place.candidate?
    rw [haction]
  | absorbed => cases haction
  | property spec => cases haction

theorem isCallable_of_action (haction : p.action owner = .callable kind h c) :
    kind.isCallable = true := by
  unfold Place.action at haction
  split at haction
  · exact isCallable_of_memberAction haction
  · cases haction

end Places

theorem State.Extends.records_subset {P : ExportRecord → Prop} {s t : State} (h : s.Extends P t) :
    s.records.toList ⊆ t.records.toList := by
  obtain ⟨new, hrecords, -⟩ := h.records
  rw [hrecords]
  exact List.subset_append_left _ _

namespace ClassVisit

variable (k : ClassVisit) {i : Nat} {place : Place}

/-- Own members stand first. -/
theorem allPlaces_of_own (hplace : k.own[i]? = some place) :
    k.allPlaces[i]? = some place ∧ k.allPlaces.take i = k.own.take i := by
  have hi := (List.getElem?_eq_some_iff.mp hplace).1
  unfold allPlaces classPlaces
  exact ⟨(List.getElem?_append_left hi).trans hplace, List.take_append_of_le_length (Nat.le_of_lt hi)⟩

theorem allPlaces_eq (hplace : k.allPlaces[i]? = some place) :
    k.allPlaces = k.allPlaces.take i ++ place :: k.allPlaces.drop (i + 1) := by
  obtain ⟨hi, hget⟩ := List.getElem?_eq_some_iff.mp hplace
  rw [← hget, ← List.drop_eq_getElem_cons hi, List.take_append_drop]

section Result

variable {o : Options} {u : TranslationUnit}

/-- What the first place with a key offers is in the result. -/
theorem exists_record_of_first (hk : k.visit ∈ visits (Context.ofUnit o u) u.decls)
    (hplace : k.allPlaces[i]? = some place) {constants : OrderedMap String Int64} {r : ExportRecord}
    (hr : place.candidate? k.inside k.owner constants = some r)
    (hfirst : ∀ q ∈ k.allPlaces.take i, q.key? k.inside k.owner ≠ some (surfaceKey r))
    (hname : Text.isBlankText r.name = false) :
    ∃ r' ∈ (finalState o u).records.toList, r'.identity = r.identity := by
  have hrun : ∀ s : State, r.identity ∈ (k.visit.run s).identities :=
    Visit.identity_mem_run_of_first k.decl_eq k.verdict_eq k.usable rfl rfl
      (TypeIndex.depthFirst_iff.mpr rfl) (k.allPlaces_eq hplace) hr hfirst hname
  rw [finalState_eq_runVisits]
  exact ((sound_runVisits _).identities _).mp (identity_mem_runVisits hk hrun {})

/-- The class takes over the member at a place: what it offers under a usable name is in the records,
by its identity, unless an earlier place of the class has its key. -/
def TakesOver (records : List ExportRecord) (p : Place) : Prop :=
  ∃ i : Nat, k.allPlaces[i]? = some p ∧
    ∀ constants r, p.candidate? k.inside k.owner constants = some r →
      Text.isBlankText r.name = false →
      (∃ r' ∈ records, r'.identity = r.identity) ∨
        ∃ q ∈ k.allPlaces.take i, q.key? k.inside k.owner = some (surfaceKey r)

/-- In a result, every place of a class is taken over. -/
theorem takesOver (hk : k.visit ∈ visits (Context.ofUnit o u) u.decls) (hplace : place ∈ k.allPlaces) :
    k.TakesOver (finalState o u).records.toList place := by
  obtain ⟨i, hi⟩ := List.mem_iff_getElem?.mp hplace
  refine ⟨i, hi, fun constants r hr hname => ?_⟩
  by_cases hfirst : ∀ q ∈ k.allPlaces.take i, q.key? k.inside k.owner ≠ some (surfaceKey r)
  · exact .inl (k.exists_record_of_first hk hi hr hfirst hname)
  · simp only [not_forall, not_not] at hfirst
    obtain ⟨q, hq, hkey⟩ := hfirst
    exact .inr ⟨q, hq, hkey⟩

/-! ## Callables -/

/-- The place offers a callable with the name, the parameter types and the constness of another one. -/
def Redeclares (q : Place) (h : Header) (c : Callable) : Prop :=
  ∃ kind h' c', q.action k.owner = .callable kind h' c' ∧ h'.name = h.name ∧
    c'.params.map (·.type.canonical.text) = c.params.map (·.type.canonical.text) ∧
    c'.isConst = c.isConst

/-- The result has a callable with the qualified name, the parameter types and the constness that the
method has in the class. -/
def HasCallable (records : List ExportRecord) (h : Header) (c : Callable) : Prop :=
  ∃ r ∈ records, r.kind.isCallable = true ∧
    r.qualifiedName = k.owner.qualifiedName ++ "::" ++ Text.trim h.name ∧
    r.parameterTypes = c.params.map (·.type.canonical.text) ∧ r.isConst = c.isConst

/-- A callable member is in the result unless an earlier own place takes its key for something else. -/
theorem hasCallable_or_taken (hk : k.visit ∈ visits (Context.ofUnit o u) u.decls)
    (hplace : k.own[i]? = some place) {kind : ExportKind} {h : Header} {c : Callable}
    (haction : place.action k.owner = .callable kind h c) (hname : Text.isBlankText h.name = false) :
    k.HasCallable (finalState o u).records.toList h c ∨
      ∃ q ∈ k.own.take i, q.key? k.inside k.owner = place.key? k.inside k.owner ∧
        ¬ k.Redeclares q h c := by
  by_cases hhonest : ∀ q ∈ k.own.take i, q.key? k.inside k.owner = place.key? k.inside k.owner →
      k.Redeclares q h c
  · left
    obtain ⟨j, q, hj, hq, hkey, hfirst⟩ := exists_first_place (P := fun q =>
      q.key? k.inside k.owner = place.key? k.inside k.owner) hplace rfl
    have hredeclares : k.Redeclares q h c := by
      rcases Nat.lt_or_eq_of_le hj with hlt | rfl
      · have hbefore : (k.own.take i)[j]? = some q := by
          rw [List.getElem?_take, if_pos hlt, hq]
        exact hhonest q (List.mem_of_getElem? hbefore) hkey
      · cases hplace.symm.trans hq
        exact ⟨kind, h, c, haction, rfl, rfl, rfl⟩
    obtain ⟨kind', h', c', haction', hname', htypes, hconst⟩ := hredeclares
    have hr := candidate?_of_callable haction' k.inside {}
    have hkey' := hkey.symm.trans (key?_of_candidate? hr)
    obtain ⟨hat, hbefore⟩ := k.allPlaces_of_own hq
    rw [hkey', ← hbefore] at hfirst
    have hname'' : Text.isBlankText h'.name = false := hname'.symm ▸ hname
    obtain ⟨r, hmem, hidentity⟩ := k.exists_record_of_first hk hat hr hfirst hname''
    have hkind : r.kind = kind' := congrArg Identity.kind hidentity
    refine ⟨r, hmem, ?_, ?_, ?_, ?_⟩
    · rw [hkind]
      exact isCallable_of_action haction'
    · rw [← k.qualifiedName_inside hname, ← hname']
      exact congrArg Identity.qualifiedName hidentity
    · exact (congrArg Identity.parameterTypes hidentity).trans htypes
    · exact (congrArg Identity.isConst hidentity).trans hconst
  · simp only [not_forall] at hhonest
    obtain ⟨q, hq, hkey, hother⟩ := hhonest
    exact .inr ⟨q, hq, hkey, hother⟩

/-! ## The record itself -/

/-- What keeps the record of the own place `i` out of the result, for a class that is met in the state
`s`: an earlier own place asks for its key, or a record has its identity that was there before or has
another name. -/
inductive Bars (k : ClassVisit) (s : State) (i : Nat) (r : ExportRecord) : Prop where
  | key {q : Place} (earlier : q ∈ k.own.take i)
    (same : q.key? k.inside k.owner = some (surfaceKey r))
  | known {r' : ExportRecord} (mem : r' ∈ s.records.toList) (same : r'.identity = r.identity)
  | renamed {r' : ExportRecord} (mem : r' ∈ (k.visit.run s).records.toList)
    (same : r'.identity = r.identity) (other : r'.name ≠ r.name)

/-- A record of an own place with a usable name is in the result unless something bars it. -/
theorem mem_records_or_bars {before after : List Visit} {r : ExportRecord}
    (hvisits : visits (Context.ofUnit o u) u.decls = before ++ k.visit :: after)
    (hplace : k.own[i]? = some place)
    (hr : ∀ constants, place.candidate? k.inside k.owner constants = some r)
    (hname : Text.isBlankText r.name = false) :
    r ∈ (finalState o u).records.toList ∨ k.Bars (runVisits before {}) i r := by
  by_cases hfirst : ∀ q ∈ k.own.take i, q.key? k.inside k.owner ≠ some (surfaceKey r)
  · obtain ⟨hat, hbefore⟩ := k.allPlaces_of_own hplace
    rw [← hbefore] at hfirst
    obtain ⟨r', hmem, hidentity, hsame⟩ := Visit.exists_record_of_first k.decl_eq k.verdict_eq k.usable
      (TypeIndex.depthFirst_iff.mpr rfl) (sound_runVisits before) (k.allPlaces_eq hat) (hr _)
      hfirst hname
    by_cases hother : r'.name = r.name
    · by_cases hknown : r' ∈ (runVisits before {}).records.toList
      · exact .inr (.known hknown hidentity)
      · obtain rfl := hsame hother hknown
        exact .inl ((extends_of_split hvisits).records_subset hmem)
    · exact .inr (.renamed hmem hidentity hother)
  · simp only [not_forall, not_not] at hfirst
    obtain ⟨q, hq, hkey⟩ := hfirst
    exact .inr (.key hq hkey)

end Result

end ClassVisit

end ScriptExport.Analysis
