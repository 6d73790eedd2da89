import ScriptExport.Proofs.Analysis.Flattening
import ScriptExport.Proofs.Analysis.Origins

/-!
# Members that are left out

A member can be marked to be left out. It then makes no record, starts no property and joins none. It
does not reserve its key either: in a class each key goes to the first place that asks for it
(`mem_firstOfEachKey_of_first`), and a member that is left out asks for none (`key?_of_isExcluded`). So a
base that declares the same method once more brings it back onto the class.
-/

namespace ScriptExport

variable {constants : OrderedMap String Int64} {r : ExportRecord}

namespace Analysis

/-! ## No part of a property -/

namespace PropertyPlan

/-- There is a member at the place, and it is not left out. -/
def IsKept (members : List Member) (i : Nat) : Prop :=
  ∃ m, members[i]? = some m ∧ m.mark.isExcluded = false

/-- The plan takes up no member that is left out. -/
def Spares (members : List Member) (p : PropertyPlan) : Prop :=
  ∀ (i : Nat) (m : Member) (slot : Slot), members[i]? = some m → m.mark.isExcluded = true →
    p.slots[i]? = some slot → slot = .member

variable {members : List Member} {p q : PropertyPlan} {i : Nat}

theorem spares_initial (members : List Member) : (initial members).Spares members := by
  intro i m slot hm hexcluded hslot
  unfold initial at hslot
  rw [List.getElem?_map, hm] at hslot
  exact (Option.some.inj hslot).symm

/-- Only the slot of a kept member may change. -/
theorem Spares.of_set (hp : p.Spares members) (hi : IsKept members i) {slot : Slot}
    (hslots : q.slots = p.slots.set i slot) : q.Spares members := by
  intro j m slot' hm hexcluded hslot
  by_cases hij : i = j
  · subst hij
    obtain ⟨m', hm', hkept⟩ := hi
    cases hm.symm.trans hm'
    rw [hexcluded] at hkept
    cases hkept
  · rw [hslots, List.getElem?_set_ne hij] at hslot
    exact hp j m slot' hm hexcluded hslot

theorem Spares.place (hp : p.Spares members) {other : Option Nat} (hi : IsKept members i)
    (hother : ∀ j, other = some j → IsKept members j) (spec : PropertySpec) :
    (p.place i other spec).Spares members := by
  cases other with
  | none => exact hp.of_set hi rfl
  | some j =>
    have habsorbed : ({ p with slots := p.slots.set j .absorbed } : PropertyPlan).Spares members :=
      hp.of_set (hother j rfl) rfl
    exact habsorbed.of_set hi rfl

/-- An opposite accessor is not left out. -/
theorem isKept_of_partner? {isStatic : Bool} {a : Accessor} {j : Nat} {h : Header} {c : Callable}
    (hfound : p.partner? members i isStatic a = some (j, h, c)) : IsKept members j := by
  unfold partner? at hfound
  obtain ⟨⟨m, k⟩, hmem, hfound⟩ := List.exists_of_findSome?_eq_some hfound
  have hm : members[k]? = some m := List.mem_zipIdx_iff_getElem?.mp hmem
  dsimp only at hfound
  split at hfound
  · next hpartner =>
    cases hd : m.decl with
    | method h' c' =>
      rw [hd] at hfound
      cases hfound
      refine ⟨m, hm, ?_⟩
      simp only [Member.isPartner, hd, Bool.and_eq_true, Bool.not_eq_true'] at hpartner
      exact hpartner.2.1.1.1.1.1
    | _ =>
      rw [hd] at hfound
      cases hfound
  · cases hfound

/-- Forming a property spares the members that are left out. -/
theorem Spares.form (hp : p.Spares members) (hi : IsKept members i) (owner : String) (h : Header)
    (c : Callable) (directive : Directive) (a : Accessor) :
    (p.form owner members i h c directive a).Spares members := by
  have halone : ∀ j, (none : Option Nat) = some j → IsKept members j := by
    intro j hj
    cases hj
  unfold PropertyPlan.form
  dsimp only
  split
  · refine Spares.place ?_ hi halone _
    exact hp
  · next j other otherCallable hpartner =>
    have hj := isKept_of_partner? hpartner
    have hpair : IsKept members (if i < j then (i, j) else (j, i)).1 ∧
        IsKept members (if i < j then (i, j) else (j, i)).2 := by
      split
      · exact ⟨hi, hj⟩
      · exact ⟨hj, hi⟩
    -- what the accessors are has no part in which places they take
    generalize (if a.role = .getter then
        ((⟨h.name, accessorType c⟩, ⟨other.name, accessorType otherCallable⟩) :
          AccessorMethod × AccessorMethod)
      else (⟨other.name, accessorType otherCallable⟩, ⟨h.name, accessorType c⟩)) = accessors
    split
    · refine Spares.place ?_ hpair.1 ?_ _
      · exact hp
      · rintro k ⟨⟩
        exact hpair.2
    · refine Spares.place ?_ hi halone _
      exact hp

/-- A look spares the members that are left out. -/
theorem Spares.take (hp : p.Spares members) {m : Member} (hm : members[i]? = some m)
    (owner : String) : (p.take owner members m i).Spares members := by
  unfold PropertyPlan.take
  split
  · exact hp
  · next hfree =>
    have hkept : IsKept members i := by
      refine ⟨m, hm, ?_⟩
      simp only [Bool.or_eq_true, not_or, Bool.not_eq_true] at hfree
      exact hfree.1.1
    split
    · split
      · split
        · exact hp
        · split
          · exact hp.of_set hkept rfl
          · exact hp.form hkept owner _ _ _ _
      · exact hp
    · exact hp

end PropertyPlan

/-- A plan spares the members that are left out. -/
theorem spares_planProperties (owner : String) (members : List Member) :
    (planProperties owner members).Spares members := by
  have hfold : ∀ (rest : List (Member × Nat)) (p : PropertyPlan), p.Spares members →
      (∀ x ∈ rest, members[x.2]? = some x.1) →
      (rest.foldl (fun p x => p.take owner members x.1 x.2) p).Spares members := by
    intro rest
    induction rest with
    | nil => exact fun p hp _ => hp
    | cons x rest ih =>
      intro p hp hrest
      obtain ⟨hx, hrest⟩ := List.forall_mem_cons.mp hrest
      exact ih _ (hp.take hx owner) hrest
  refine hfold _ _ (PropertyPlan.spares_initial members) ?_
  intro x hx
  exact List.mem_zipIdx_iff_getElem?.mp hx

/-! ## Keys -/

/-- The first record with a key is kept. -/
theorem mem_firstOfEachKey_of_first {after : List ExportRecord} :
    (before : List ExportRecord) → (∀ r' ∈ before, surfaceKey r' ≠ surfaceKey r) →
      r ∈ firstOfEachKey (before ++ r :: after)
  | [], _ => by
    rw [List.nil_append, firstOfEachKey_cons]
    exact List.mem_cons_self
  | first :: before, h => by
    obtain ⟨hfirst, hbefore⟩ := List.forall_mem_cons.mp h
    have hr : (surfaceKey r != surfaceKey first) = true := by simpa [bne] using hfirst.symm
    rw [List.cons_append, firstOfEachKey_cons, List.filter_append,
      List.filter_cons_of_pos (p := fun r' => surfaceKey r' != surfaceKey first) hr]
    refine List.mem_cons_of_mem first (mem_firstOfEachKey_of_first _ ?_)
    intro r' hr'
    exact hbefore r' (List.mem_filter.mp hr').1
termination_by before => before.length
decreasing_by exact Nat.lt_succ_of_le (List.length_filter_le _ _)

/-- The key that the place asks for. -/
def Place.key? (ctx : Context) (owner : Owner) (p : Place) : Option String :=
  (p.candidate? ctx owner {}).map surfaceKey

section Keys

variable {ctx : Context} {owner : Owner}

/-- Constants have a part in the value of a record only. -/
theorem candidate?_congr {p : Place} (hr : p.candidate? ctx owner constants = some r)
    (constants' : OrderedMap String Int64) :
    ∃ value, p.candidate? ctx owner constants' = some { r with value } := by
  unfold Place.candidate? at hr ⊢
  split at hr
  · exact ⟨r.value, hr⟩
  · exact ⟨r.value, hr⟩
  · split at hr
    · next hconstant =>
      cases hr
      rw [if_pos hconstant]
      exact ⟨_, rfl⟩
    · next hconstant =>
      rw [if_neg hconstant]
      exact ⟨r.value, hr⟩
  · cases hr

theorem key?_of_candidate? {p : Place} (hr : p.candidate? ctx owner constants = some r) :
    p.key? ctx owner = some (surfaceKey r) := by
  obtain ⟨value, hvalue⟩ := candidate?_congr hr {}
  unfold Place.key?
  rw [hvalue]
  rfl

/-- A member that is left out asks for no key. -/
theorem key?_of_isExcluded {marker : String} {source : MemberSource} {decls : List Decl} {p : Place}
    (hp : p ∈ places marker owner source decls) (hexcluded : p.member.decl.isExcluded marker = true) :
    p.key? ctx owner = none := by
  obtain ⟨⟨m, slot⟩, hmem, rfl⟩ := List.mem_map.mp hp
  obtain ⟨i, hi⟩ := List.mem_iff_getElem?.mp hmem
  obtain ⟨hm, hslot⟩ := List.getElem?_zip_eq_some.mp hi
  obtain ⟨d, -, rfl⟩ := List.mem_map.mp (List.mem_of_getElem? hm)
  rw [decl_markMember] at hexcluded
  have hmark : (markMember marker d).mark.isExcluded = true := by
    rw [isExcluded_markMember, hexcluded]
  obtain rfl : slot = .member := spares_planProperties _ _ i _ slot hm hmark hslot
  have haction : ∀ action, memberAction owner source (markMember marker d) = action →
      action = .nothing ∨ ∃ reason, action = .skip reason := by
    intro action h
    by_contra hother
    rw [not_or, not_exists] at hother
    obtain ⟨-, hkept, -⟩ := declaredAction_of_memberAction h hother.1 hother.2
    rw [hexcluded] at hkept
    cases hkept
  unfold Place.key? Place.candidate? Place.action
  dsimp only
  rcases haction _ rfl with h | ⟨reason, h⟩
  · rw [h]
    rfl
  · rw [h]
    rfl

/-- The candidates of some places come from those places. -/
theorem key?_of_mem_candidates {ps : List Place} (hr : r ∈ candidates ctx owner constants ps) :
    ∃ p ∈ ps, p.key? ctx owner = some (surfaceKey r) := by
  induction ps generalizing constants with
  | nil => cases hr
  | cons p ps ih =>
    rcases List.mem_append.mp hr with hr | hr
    · exact ⟨p, List.mem_cons_self, key?_of_candidate? (Option.mem_toList.mp hr)⟩
    · obtain ⟨q, hq, hkey⟩ := ih hr
      exact ⟨q, List.mem_cons_of_mem p hq, hkey⟩

/-- A key goes to the first place that asks for it. -/
theorem mem_firstOfEachKey_candidates {before : List Place} {place : Place}
    (hr : place.candidate? ctx owner (learnAll ctx owner constants before) = some r)
    (hfirst : ∀ q ∈ before, q.key? ctx owner ≠ some (surfaceKey r)) (after : List Place) :
    r ∈ firstOfEachKey (candidates ctx owner constants (before ++ place :: after)) := by
  rw [candidates_append, candidates, hr, Option.toList_some, List.singleton_append]
  apply mem_firstOfEachKey_of_first
  intro earlier hearlier hsame
  obtain ⟨q, hq, hkey⟩ := key?_of_mem_candidates hearlier
  exact hfirst q hq (hsame ▸ hkey)

end Keys

/-! ## Records -/

/-- What a visit makes it makes for something that is not left out. -/
theorem Visit.Makes.isExcluded_eq_false {ctx : Context} {p : Occurrence} {v : Visit}
    (hvisit : p.visit? ctx = some v) {m : Option Decl} {h : Header} {ts : List TypeRef}
    (hmakes : v.Makes m r h ts) : (p.atMember m).decl.isExcluded ctx.options.marker = false := by
  -- the walk comes to no member, and only members can be left out
  have hitself : p.decl.isExcluded ctx.options.marker = false := by
    have hmember : p.decl.isMemberOnly = false := by
      unfold Occurrence.visit? at hvisit
      split at hvisit
      · cases hvisit
      · next hopen =>
        rw [Bool.or_eq_true, not_or, Bool.not_eq_true] at hopen
        exact hopen.1
    unfold Decl.isExcluded
    rw [hmember]
    rfl
  obtain rfl := Occurrence.of_visit? hvisit
  cases hmakes with
  | itself => exact hitself
  | binding => exact hitself
  | member hlist hm hkept =>
    rw [options_within] at hkept
    exact hkept
  | property hlist hformed =>
    have hdirective := hformed.directive
    rw [options_within] at hdirective
    exact isExcluded_of_directive hdirective

theorem isValid_of_candidate? {ctx : Context} {owner : Owner} {p : Place}
    (hr : p.candidate? ctx owner constants = some r) (hname : Text.isBlankText r.name = false) :
    r.isValid = true := by
  rw [ExportRecord.isValid_iff, (owner_of_candidate? hr).2]
  exact ⟨hname, isBlankText_qualifiedName hname _⟩

/-- Every offered record of use leaves its identity behind. -/
theorem identity_mem_foldl_emit {rs : List ExportRecord} (hr : r ∈ rs) (hvalid : r.isValid = true)
    (s : State) : r.identity ∈ (rs.foldl (fun s r => s.emit r) s).identities := by
  induction rs generalizing s with
  | nil => cases hr
  | cons first rs ih =>
    rcases List.mem_cons.mp hr with rfl | hr
    · have hrest : (s.emit r).Changes (fun _ => True) (rs.foldl (fun s r => s.emit r) (s.emit r)) :=
        State.Changes.foldl (fun s _ _ => changes_emit s trivial) _
      exact hrest.covers.identities (identity_mem_emit s hvalid)
    · exact ih hr _

section Classes

variable {v : Visit} {head : Header} {traits : RecordTraits} {members : List Decl} {a : Directive}

/-- What the first place of a class with a key offers is in the result after the visit, if not before. -/
theorem Visit.identity_mem_run_of_first (hdecl : v.decl = .record head traits members)
    (hdirective : v.verdict.directive = some a) (hhead : Text.isBlankText head.name = false)
    {inside : Context} (hinside : inside = v.ctx.enterClass head a) {owner : Owner}
    (howner : owner = v.ctx.classOwner head traits members a) {flattened : List TypeEntry}
    {before after : List Place} {place : Place}
    (hflattened : v.ctx.index.DepthFirst [owner.qualifiedName] v.ctx.scopes.path traits.bases flattened)
    (hplaces : classPlaces v.ctx.options.marker owner members flattened = before ++ place :: after)
    (hr : place.candidate? inside owner constants = some r)
    (hfirst : ∀ q ∈ before, q.key? inside owner ≠ some (surfaceKey r))
    (hname : Text.isBlankText r.name = false) (s : State) : r.identity ∈ (v.run s).identities := by
  subst hinside howner
  rw [Visit.run_class hdecl hdirective hhead]
  generalize (s.visit v.ctx v.decl).emit (v.ctx.classRecord head traits members a) = s
  obtain ⟨value, hvalue⟩ := candidate?_congr hr (learnAll _ _ s.constants before)
  have hoffered := mem_firstOfEachKey_candidates hvalue hfirst after
  obtain ⟨-, hresult⟩ := offered_classSurface v.ctx head traits members a s
  rw [← TypeIndex.depthFirst_iff.mp hflattened, hplaces] at hresult
  have hvalid : r.isValid = true := isValid_of_candidate? hr hname
  exact hresult.covers.identities (identity_mem_foldl_emit hoffered hvalid _)

end Classes

/-- What a visit leaves behind from any state is in the result. -/
theorem exists_record_of_identity_mem_run {o : Options} {u : TranslationUnit} {p : Occurrence}
    {v : Visit} {i : Identity} (hp : p ∈ occurrences [] u.decls)
    (hvisit : p.visit? (Context.ofUnit o u) = some v) (hi : ∀ s : State, i ∈ (v.run s).identities) :
    ∃ r ∈ (finalState o u).records.toList, r.identity = i := by
  have hmem := identity_mem_runVisits (mem_visits_iff.mpr ⟨p, hp, hvisit⟩) hi {}
  have hsound := sound_runVisits (visits (Context.ofUnit o u) u.decls)
  rw [← finalState_eq_runVisits] at hmem hsound
  exact (hsound.identities i).mp hmem

section Split

variable {o : Options} {u : TranslationUnit} {before after : List Visit} {v : Visit}
  (hvisits : visits (Context.ofUnit o u) u.decls = before ++ v :: after)
include hvisits

theorem mem_visits_of_split : v ∈ visits (Context.ofUnit o u) u.decls := by
  rw [hvisits]
  exact List.mem_append_right _ List.mem_cons_self

theorem marker_of_split : v.ctx.options.marker = o.marker :=
  congrArg Options.marker (options_of_mem_visits (mem_visits_of_split hvisits))

theorem directive_of_split {a : Directive} (ha : v.decl.directive? o.marker = some a) :
    v.verdict.directive = some a := by
  rw [← ha, ← marker_of_split hvisits]
  exact directive_verdict_eq _ v.decl

/-- What a visit leaves behind is a beginning of the result. -/
theorem extends_of_split :
    (v.run (runVisits before {})).Extends (fun _ => True) (finalState o u) := by
  rw [finalState_eq_runVisits, hvisits, runVisits_append, runVisits_cons]
  exact (changes_runVisits after _).extends

end Split

end Analysis

open Analysis

/-- **Members that are left out reserve nothing.** In the result of an accepted unit every record was made
by a declaration that is not left out. In an exported class a member that is left out asks for no key, so
it does not stand in the way of any other: each key goes to the first place that asks for it, be it an own
member or one of a base, and the record of that place is in the result. -/
theorem excluded_members_reserve_no_key (o : Options) (u : TranslationUnit) (h : u.check o = .ok ()) :
    ∃ result, analyze o u = .ok result ∧
      (∀ r ∈ result.records, ∃ p ∈ occurrences [] u.decls, ∃ v m header types,
        p.visit? (Context.ofUnit o u) = some v ∧ v.Makes m r header types ∧
          (p.atMember m).decl.isExcluded o.marker = false) ∧
      ∀ p ∈ occurrences [] u.decls, ∀ v head traits members a,
        p.visit? (Context.ofUnit o u) = some v → p.decl = .record head traits members →
        p.decl.directive? o.marker = some a → Text.isBlankText head.name = false →
        let inside := v.ctx.enterClass head a
        let owner := v.ctx.classOwner head traits members a
        ∃ flattened,
          (∀ l, v.ctx.index.DepthFirst [owner.qualifiedName] v.ctx.scopes.path traits.bases l ↔
            l = flattened) ∧
          (∀ place ∈ classPlaces o.marker owner members flattened,
            place.member.decl.isExcluded o.marker = true → place.key? inside owner = none) ∧
          ∀ before place after constants r,
            classPlaces o.marker owner members flattened = before ++ place :: after →
            place.candidate? inside owner constants = some r →
            (∀ q ∈ before, q.key? inside owner ≠ some (surfaceKey r)) →
            Text.isBlankText r.name = false →
            r.ownerType = owner.qualifiedName ∧ ∃ r' ∈ result.records, r'.identity = r.identity := by
  refine ⟨_, analyze_of_check h, ?_, ?_⟩
  · intro r hr
    obtain ⟨p, hp, v, m, header, types, hvisit, hmakes, -⟩ := exists_makes_of_mem_records hr
    exact ⟨p, hp, v, m, header, types, hvisit, hmakes, hmakes.isExcluded_eq_false hvisit⟩
  · intro p hp v head traits members a hvisit hdecl ha hhead inside owner
    obtain rfl := Occurrence.of_visit? hvisit
    have hmarker : ((Context.ofUnit o u).within p.around).options.marker = o.marker := by
      rw [options_within]
      rfl
    have hdirective : (⟨(Context.ofUnit o u).within p.around, p.decl⟩ : Visit).verdict.directive =
        some a := by
      rw [← ha, ← hmarker]
      exact directive_verdict_eq _ p.decl
    refine ⟨_, fun l => TypeIndex.depthFirst_iff, ?_, ?_⟩
    · intro place hplace hexcluded
      rcases List.mem_append.mp hplace with hown | hinherited
      · exact key?_of_isExcluded hown hexcluded
      · obtain ⟨e, -, hinherited⟩ := List.mem_flatMap.mp hinherited
        exact key?_of_isExcluded hinherited hexcluded
    · intro before place after constants r hplaces hr hfirst hname
      refine ⟨?_, ?_⟩
      · rw [(owner_of_candidate? hr).1, (qualifiedName_enterClass _ hhead a).1]
        rfl
      · rw [← hmarker] at hplaces
        refine exists_record_of_identity_mem_run hp hvisit ?_
        exact Visit.identity_mem_run_of_first hdecl hdirective hhead rfl rfl
          (TypeIndex.depthFirst_iff.mpr rfl) hplaces hr hfirst hname

/-- A record that is not exported and has a method. -/
def methodBase : Decl :=
  .record { name := "Base" } {} [.method { name := "f" } {}]

/-- A class that leaves out its own method of that name. -/
def excludingClass : Decl :=
  .record { name := "D", annotations := ["lua_export_class"] } { bases := [{ name := "Base" }] }
    [.method { name := "f", annotations := ["lua_export_ignore"] } {}]

/-- The class after its base. -/
def excludingUnit : TranslationUnit :=
  { filePath := "d.h", decls := [methodBase, excludingClass] }

/-- A method that the class leaves out comes back from its base. -/
theorem excluded_members_reserve_no_key_taken_back :
    excludingUnit.check {} = .ok () ∧
    (∀ m ∈ excludingClass.children, m.name = "f" ∧ m.isExcluded "lua_export_" = true) ∧
    ∃ result, analyze {} excludingUnit = .ok result ∧
      ∃ r ∈ result.records, r.identity = ⟨.method, "D::f", [], false⟩ := by
  have haccepted : excludingUnit.check {} = .ok () := TranslationUnit.check_default (by decide) rfl
  refine ⟨haccepted, by decide, ?_⟩
  obtain ⟨result, hresult, -, hclass⟩ := excluded_members_reserve_no_key {} excludingUnit haccepted
  refine ⟨result, hresult, ?_⟩
  have hdirective : excludingClass.directive? "lua_export_" = some ⟨.classType, {}⟩ := by rfl
  have hoccurs : (⟨[], excludingClass⟩ : Occurrence) ∈ occurrences [] excludingUnit.decls := by
    simp [excludingUnit, occurrences, occurrencesOf_eq]
  obtain ⟨flattened, hflattened, hexcluded, hoffered⟩ := hclass _ hoccurs _ _ _ _ _
    (visit?_of_open rfl rfl) rfl hdirective (by decide)
  have hbase : (TypeIndex.ofDecls {} excludingUnit.decls).DepthFirst ["D"] [] [{ name := "Base" }]
      [⟨methodBase, "Base", "Base", false, []⟩] :=
    @TypeIndex.DepthFirst.enter _ _ _ _ _ ⟨methodBase, "Base", "Base", false, []⟩ [] []
      ⟨rfl, by rfl, rfl, by decide⟩ (.nil _ _) (.nil _ _)
  cases (hflattened _).mp hbase
  have hfirst := hoffered [_] _ [] {} _ rfl rfl
  refine (hfirst ?_ (by decide)).2
  intro q hq
  obtain rfl := List.mem_singleton.mp hq
  rw [hexcluded _ List.mem_cons_self (by decide)]
  simp

end ScriptExport
