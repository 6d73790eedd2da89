import Mathlib.Data.List.Induction
import ScriptExport.Proofs.Analysis.Origins

/-!
# Types before their members

The record of a class is the first thing that the visit to the class offers, and whatever has the class
as its owner is offered by that visit or by a visit to something inside the class, which comes later
(`mem_before_of_suffix`). So the class stands before everything that it owns, provided that its name
tells it apart from the other records of the source: the owner of what is inside a record without a name
is shown as `(anonymous)`, which may also be written out as a name (`Occurrence.ownerName`).
-/

namespace ScriptExport

/-- Whether the declaration is a record. -/
def Decl.isRecord : Decl → Bool
  | record .. => true
  | _ => false

namespace Analysis

/-! ## Enclosing declarations -/

/-- The scopes around an occurrence come before it. -/
theorem mem_before_of_suffix {p : Occurrence} {before after : List Occurrence} (around : List Decl)
    (ds : List Decl) (h : occurrences around ds = before ++ p :: after) {d : Decl} {rest : List Decl}
    (hsuffix : d :: rest <:+ p.around) (hnew : ¬ d :: rest <:+ around) :
    ⟨rest, d⟩ ∈ before ∧ d.children ≠ [] := by
  induction ds using Decl.list_induction generalizing around before after with
  | nil =>
    rw [occurrences] at h
    simp at h
  | cons e ds ihContents ih =>
    rw [occurrences, occurrencesOf_eq, List.cons_append] at h
    cases before with
    | nil =>
      -- the first occurrence has no scopes around it but the given ones
      obtain ⟨rfl, -⟩ := List.cons.inj h
      exact absurd hsuffix hnew
    | cons q before =>
      obtain ⟨hq, hrest⟩ := List.cons.inj h
      have hlater : ∀ middle, occurrences around ds = middle ++ p :: after →
          ⟨rest, d⟩ ∈ middle ∧ d.children ≠ [] := fun middle hmiddle => ih around hmiddle hnew
      rcases List.append_eq_append_iff.mp hrest with ⟨middle, rfl, hmiddle⟩ | ⟨middle, hinside, hmiddle⟩
      · -- it stands behind the contents of the first declaration
        obtain ⟨hmem, hchildren⟩ := hlater middle hmiddle
        exact ⟨List.mem_cons_of_mem _ (List.mem_append_right _ hmem), hchildren⟩
      · cases middle with
        | nil => exact absurd (hlater [] hmiddle.symm).1 List.not_mem_nil
        | cons p' middle =>
          -- it stands in the first declaration, which is one of the scopes around it
          obtain ⟨rfl, -⟩ := List.cons.inj hmiddle
          by_cases hfirst : d :: rest <:+ e :: around
          · rcases List.suffix_cons_iff.mp hfirst with heq | hsuffix
            · obtain ⟨rfl, rfl⟩ := List.cons.inj heq
              refine ⟨hq ▸ List.mem_cons_self, fun hnone => ?_⟩
              rw [hnone, occurrences] at hinside
              simp at hinside
            · exact absurd hsuffix hnew
          · obtain ⟨hmem, hchildren⟩ := ihContents (e :: around) hinside hfirst
            exact ⟨List.mem_cons_of_mem _ hmem, hchildren⟩

/-! ## Owners -/

/-- The name under which what is inside the declaration has it as its owner. -/
def Occurrence.ownerName (p : Occurrence) : String :=
  qualify p.path (scopeName p.decl.name)

/-- A namespace leaves the owner as it is, and any other scope is the owner of what is inside it. -/
theorem owner?_inside (ctx : Context) (d : Decl) :
    (ctx.inside d).scopes.owner? =
      match d with
      | .nameSpace _ _ => ctx.scopes.owner?
      | d => some (ctx.scopes.within (scopeName d.name)) := by
  unfold Context.inside
  cases d with
  | nameSpace h ds =>
    have hkind : ∀ directive, (namespaceScope directive == .record) = false := by
      intro directive
      unfold namespaceScope
      split <;> rfl
    unfold Context.enterNamespace Context.enter Scopes.enter Scopes.owner?
    dsimp only
    rw [List.find?_cons_of_neg]
    simp [hkind]
  | _ =>
    dsimp only
    split <;> rfl

variable {ctx : Context} {ts : List TypeRef}

/-- The owner inside scopes is the innermost of them that is no namespace. -/
theorem owner?_within (htop : ctx.scopes = []) (around : List Decl) :
    (ctx.within around).scopes.owner? = none ∨ ∃ d rest, d :: rest <:+ around ∧
      (∀ h ds, d ≠ .nameSpace h ds) ∧
      (ctx.within around).scopes.owner? = some (⟨rest, d⟩ : Occurrence).ownerName := by
  induction around with
  | nil =>
    left
    show ctx.scopes.owner? = none
    rw [htop]
    rfl
  | cons d around ih =>
    have hname : (ctx.within around).scopes.within (scopeName d.name) =
        (⟨around, d⟩ : Occurrence).ownerName := within_around htop ⟨around, d⟩ _
    have howner : (ctx.within (d :: around)).scopes.owner? = _ := owner?_inside (ctx.within around) d
    rw [howner]
    cases d with
    | nameSpace h ds =>
      rcases ih with hnone | ⟨d, rest, hsuffix, hrecord, hsome⟩
      · exact .inl hnone
      · exact .inr ⟨d, rest, hsuffix.trans (List.suffix_cons _ _), hrecord, hsome⟩
    | _ => exact .inr ⟨_, around, List.suffix_refl _, by simp, congrArg some hname⟩

theorem qualifiedName_eq_ownerName (htop : ctx.scopes = []) {p : Occurrence}
    (hname : Text.isBlankText p.decl.name = false) :
    (ctx.within p.around).scopes.qualifiedName p.decl.name = p.ownerName := by
  unfold Occurrence.ownerName scopeName Scopes.qualifiedName Text.trimmed?
  rw [hname]
  exact within_around htop p _

/-- What a declaration itself makes is owned by the record around it, if there is one. -/
theorem Context.Represents.owner_cases (htop : ctx.scopes = []) {around : List Decl} {d : Decl}
    {r : ExportRecord} (h : (ctx.within around).Represents d r ts) :
    r.ownerType = "" ∨ ∃ e rest, e :: rest <:+ around ∧ (∀ h ds, e ≠ .nameSpace h ds) ∧
      r.ownerType = (⟨rest, e⟩ : Occurrence).ownerName := by
  rw [h.scopes_eq.1]
  rcases owner?_within htop around with hnone | ⟨e, rest, hsuffix, hscope, hsome⟩
  · left
    rw [hnone]
    rfl
  · right
    refine ⟨e, rest, hsuffix, hscope, ?_⟩
    rw [hsome]
    rfl

/-- What a visit makes is owned by the visited record or by the record around it, if there is one. -/
theorem Visit.Makes.owner_cases (htop : ctx.scopes = []) {p : Occurrence} {v : Visit}
    (hvisit : p.visit? ctx = some v) {m : Option Decl} {r : ExportRecord} {head : Header}
    (h : v.Makes m r head ts) :
    r.ownerType = "" ∨ p.decl.isRecord = true ∧ r.ownerType = p.ownerName ∨
      ∃ e rest, e :: rest <:+ p.around ∧ (∀ h ds, e ≠ .nameSpace h ds) ∧
        r.ownerType = (⟨rest, e⟩ : Occurrence).ownerName := by
  obtain rfl := Occurrence.of_visit? hvisit
  have hrecord : ∀ list ∈ (⟨ctx.within p.around, p.decl⟩ : Visit).memberLists,
      p.decl.isRecord = true := by
    intro list hlist
    unfold Visit.memberLists at hlist
    cases hdecl : p.decl with
    | record h traits members => rfl
    | _ => simp [hdecl] at hlist
  have hinside : ∀ list ∈ (⟨ctx.within p.around, p.decl⟩ : Visit).memberLists,
      ((ctx.within p.around).inside p.decl).scopes.owner?.getD "" = p.ownerName := by
    intro list hlist
    have hdecl := hrecord list hlist
    rw [owner?_inside]
    split
    · next heq =>
      rw [heq] at hdecl
      cases hdecl
    · exact within_around htop p _
  cases h with
  | itself hr =>
    rcases hr.owner_cases htop with hnone | hsome
    · exact .inl hnone
    · exact .inr (.inr hsome)
  | @binding head traits members a e hdecl ha he hannotated =>
    have hhead : head.name = p.decl.name := (congrArg Decl.name hdecl).symm
    show (ctx.within p.around).scopes.qualifiedName head.name = "" ∨ _
    rw [hhead]
    cases hname : Text.isBlankText p.decl.name with
    | true =>
      left
      unfold Scopes.qualifiedName Text.trimmed?
      rw [hname]
      rfl
    | false =>
      have hdecl : p.decl.isRecord = true := (congrArg Decl.isRecord hdecl).trans rfl
      exact .inr (.inl ⟨hdecl, qualifiedName_eq_ownerName htop hname⟩)
  | member hlist hm hkept hr =>
    exact .inr (.inl ⟨hrecord _ hlist, hr.scopes_eq.1.trans (hinside _ hlist)⟩)
  | property hlist hformed => exact .inr (.inl ⟨hrecord _ hlist, hinside _ hlist⟩)

/-! ## The order of the records -/

/-- No class stands behind what it owns. -/
structure State.TypesFirst (s : State) : Prop where
  earlier : s.records.toList.Pairwise fun r c => c.kind = .classType → r.ownerType ≠ c.qualifiedName
  itself : ∀ c ∈ s.records.toList, c.kind = .classType → c.ownerType ≠ c.qualifiedName

namespace State.TypesFirst

variable {s t : State}

/-- Records of other kinds may be added. -/
theorem of_changes (hs : s.TypesFirst) (h : s.Changes (fun r => r.kind ≠ .classType) t) :
    t.TypesFirst := by
  obtain ⟨new, hrecords, -, hnew⟩ := h.extends.records
  have hkind : ∀ c ∈ new, c.kind ≠ .classType := fun c hc => (hnew c hc).1
  constructor
  case earlier =>
    rw [hrecords, List.pairwise_append]
    refine ⟨hs.earlier, ?_, fun r _ c hc hclass => absurd hclass (hkind c hc)⟩
    exact List.pairwise_of_forall_mem_list fun r _ c hc hclass => absurd hclass (hkind c hc)
  case itself =>
    intro c hc hclass
    rw [hrecords] at hc
    rcases List.mem_append.mp hc with hc | hc
    · exact hs.itself c hc hclass
    · exact absurd hclass (hkind c hc)

/-- A class may be added that owns no record so far. -/
theorem emit (hs : s.TypesFirst) {c : ExportRecord}
    (hc : c.isValid = true → ∀ r ∈ s.records.toList ++ [c], r.ownerType ≠ c.qualifiedName) :
    (s.emit c).TypesFirst := by
  unfold State.emit
  split
  · exact hs.of_changes (changes_report s _)
  · next hvalid =>
    have hvalid : c.isValid = true := by simpa using hvalid
    split
    · exact hs
    · have hrecords : (s.push c).records.toList = s.records.toList ++ [c] := by
        simp [State.push, State.log, State.note]
      obtain ⟨hbefore, hitself⟩ := List.forall_mem_append.mp (hc hvalid)
      constructor
      case earlier =>
        rw [hrecords, List.pairwise_append]
        refine ⟨hs.earlier, List.pairwise_singleton _ _, fun r hr c' hc' _ => ?_⟩
        rw [List.mem_singleton.mp hc']
        exact hbefore r hr
      case itself =>
        intro c' hc' hclass
        rw [hrecords] at hc'
        rcases List.mem_append.mp hc' with hc' | hc'
        · exact hs.itself c' hc' hclass
        · rw [List.mem_singleton.mp hc']
          exact hitself c List.mem_cons_self

end State.TypesFirst

/-- A visit keeps the order if the class that it exports owns no record so far. -/
theorem Visit.typesFirst_run {v : Visit} {s : State} (hs : s.TypesFirst)
    (hclass : ∀ c ts, v.ctx.Represents v.decl c ts → c.kind = .classType → c.isValid = true →
      ∀ r ∈ s.records.toList ++ [c], r.ownerType ≠ c.qualifiedName) : (v.run s).TypesFirst := by
  have hplain : ∀ r : ExportRecord, r.kind.isPlain = true → r.kind ≠ .classType := by
    intro r hr hkind
    rw [hkind] at hr
    cases hr
  have hcontainer : ∀ r : ExportRecord, r.kind = .container → r.kind ≠ .classType := by
    intro r hr hkind
    rw [hkind] at hr
    cases hr
  have hnoted : s.Changes (fun _ => False) (s.visit v.ctx v.decl) := changes_visit s v.ctx v.decl
  have hrecords : (s.visit v.ctx v.decl).records = s.records := hnoted.sameResult.records
  have hvisited : (s.visit v.ctx v.decl).TypesFirst :=
    hs.of_changes (hnoted.mono fun _ hfalse => hfalse.elim)
  obtain ⟨ctx, d⟩ := v
  unfold Visit.run
  dsimp only
  split
  · exact hvisited
  · have hdirective : (⟨ctx, d⟩ : Visit).verdict.directive = d.directive? ctx.options.marker :=
      directive_verdict_eq ctx d
    rw [hdirective]
    cases d with
    | record h traits members =>
      cases ha : (Decl.record h traits members).directive? ctx.options.marker with
      | none => exact hvisited.of_changes (changes_exportExplicitMembers hplain _ ctx h members)
      | some a =>
        -- the class comes first, and the rest of the visit adds no further one
        have hemitted : ((s.visit ctx (.record h traits members)).emit
            (ctx.classRecord h traits members a)).TypesFirst := by
          refine hvisited.emit fun hvalid r hr => ?_
          rw [hrecords] at hr
          exact hclass _ _ (.classType ha) rfl hvalid r hr
        unfold contribute
        dsimp only
        split
        · refine hemitted.of_changes (changes_exportClassMembers hplain _ ctx h traits members a ?_)
          intro e _ _
          simp [Context.inheritRecord, Context.record]
        · exact hemitted
    | _ =>
      refine hvisited.of_changes (changes_contribute hplain hcontainer _ ctx _ _ ?_ ?_)
      · intro _ _ _ _ hrecord
        cases hrecord
      · intro _ _ _ _ hrecord
        cases hrecord

/-- Types come first if no visit adds members of a later type. -/
theorem typesFirst_runVisits {vs : List Visit}
    (h : ∀ before v after, vs = before ++ v :: after → ∀ c ts, v.ctx.Represents v.decl c ts →
      c.kind = .classType → c.isValid = true →
        ∀ r ∈ (runVisits before {}).records.toList ++ [c], r.ownerType ≠ c.qualifiedName) :
    (runVisits vs {}).TypesFirst := by
  induction vs using List.reverseRecOn with
  | nil => exact ⟨List.Pairwise.nil, fun c hc => by cases hc⟩
  | append_singleton vs v ih =>
    rw [runVisits_append]
    refine Visit.typesFirst_run (ih fun before w after hsplit => ?_) (h vs v [] rfl)
    refine h before w (after ++ [v]) ?_
    rw [hsplit, List.append_assoc, List.cons_append]

/-! ## Units -/

/-- Whether the declarations are records that cannot be told apart by the name under which they are
owners; one of them has a name. -/
def Occurrence.Confused (p q : Occurrence) : Prop :=
  p.decl.isRecord = true ∧ q.decl.isRecord = true ∧
    (Text.isBlankText p.decl.name = false ∨ Text.isBlankText q.decl.name = false) ∧
    p.ownerName = q.ownerName

instance (p q : Occurrence) : Decidable (p.Confused q) :=
  inferInstanceAs (Decidable (_ ∧ _ ∧ (_ ∨ _) ∧ _))

/-- Only records are represented by classes. -/
theorem Context.Represents.of_classType {d : Decl} {c : ExportRecord} (h : ctx.Represents d c ts)
    (hkind : c.kind = .classType) :
    d.isRecord = true ∧ c.qualifiedName = ctx.scopes.qualifiedName d.name := by
  cases h with
  | classType ha => exact ⟨rfl, rfl⟩
  | nameSpace ha =>
    unfold Context.namespaceRecord Context.record at hkind
    split at hkind <;> cases hkind
  | @function h c a kind ha heq =>
    have hkind : kind = .classType := hkind
    rw [heq] at hkind
    split at hkind <;> cases hkind
  | method h c =>
    have hkind : methodKind h c = .classType := hkind
    unfold methodKind at hkind
    split at hkind
    · cases hkind
    · split at hkind <;> cases hkind
  | _ => cases hkind

section Distinct

variable {o : Options} {u : TranslationUnit}
  (hdistinct : (occurrences [] u.decls).Pairwise fun p q => ¬ p.Confused q)
  {before after : List Occurrence} {q : Occurrence}
  (hsplit : occurrences [] u.decls = before ++ q :: after) (hrecord : q.decl.isRecord = true)
  (hname : Text.isBlankText q.decl.name = false)
include hdistinct hsplit hrecord hname

/-- The records that come before a named one have other names. -/
theorem ownerName_ne_of_mem_before {p : Occurrence} (hp : p ∈ before) (hdecl : p.decl.isRecord = true) :
    p.ownerName ≠ q.ownerName := by
  intro heq
  rw [hsplit, List.pairwise_append] at hdistinct
  exact hdistinct.2.2 p hp q List.mem_cons_self ⟨hdecl, hrecord, .inr hname, heq⟩

/-- The records around what comes up to a named one have other names. -/
theorem ownerName_ne_of_suffix {earlier later : List Occurrence} {p : Occurrence}
    (hp : occurrences [] u.decls = earlier ++ p :: later) (hearlier : earlier ⊆ before) {e : Decl}
    {rest : List Decl} (hsuffix : e :: rest <:+ p.around) (hscope : ∀ h ds, e ≠ .nameSpace h ds) :
    (⟨rest, e⟩ : Occurrence).ownerName ≠ q.ownerName := by
  obtain ⟨hmem, hchildren⟩ := mem_before_of_suffix [] u.decls hp hsuffix (by simp)
  refine ownerName_ne_of_mem_before hdistinct hsplit hrecord hname (hearlier hmem) ?_
  cases e with
  | nameSpace h ds => exact absurd rfl (hscope h ds)
  | record h traits members => rfl
  | _ => exact absurd rfl hchildren

end Distinct

/-- What has been made before a class is visited, and the class itself, is not owned by the class. -/
theorem ownerType_ne_qualifiedName {o : Options} {u : TranslationUnit}
    (hdistinct : (occurrences [] u.decls).Pairwise fun p q => ¬ p.Confused q)
    {before after : List Occurrence} {q : Occurrence}
    (hsplit : occurrences [] u.decls = before ++ q :: after) {v : Visit}
    (hvisit : q.visit? (Context.ofUnit o u) = some v) {c : ExportRecord}
    (hc : v.ctx.Represents v.decl c ts) (hkind : c.kind = .classType) (hvalid : c.isValid = true) :
    ∀ r ∈ (runVisits (before.filterMap (·.visit? (Context.ofUnit o u))) {}).records.toList ++ [c],
      r.ownerType ≠ c.qualifiedName := by
  have htop : (Context.ofUnit o u).scopes = [] := rfl
  obtain rfl := Occurrence.of_visit? hvisit
  obtain ⟨hrecord, hqualified⟩ := hc.of_classType hkind
  obtain ⟨hcname, hcqualified⟩ := ExportRecord.isValid_iff.mp hvalid
  have hname : Text.isBlankText q.decl.name = false := hc.header_eq.1 ▸ hcname
  rw [qualifiedName_eq_ownerName htop hname] at hqualified
  have hempty : ∀ r : ExportRecord, r.ownerType = "" → r.ownerType ≠ c.qualifiedName := by
    intro r hr heq
    rw [← heq, hr] at hcqualified
    cases hcqualified
  have hsuffix := @ownerName_ne_of_suffix u hdistinct before after q hsplit hrecord hname
  intro r hr
  rcases List.mem_append.mp hr with hr | hr
  · let O := fun r h ts => ∃ p ∈ before, ∃ v m, p.visit? (Context.ofUnit o u) = some v ∧
      Visit.Makes v m r h ts
    have hstart : ({} : State).Explained O := by
      intro r hr
      cases hr
    have hmade : ∀ v ∈ before.filterMap (·.visit? (Context.ofUnit o u)), ∀ m r h ts,
        v.Makes m r h ts → O r h ts := by
      intro v hv m r h ts hmakes
      obtain ⟨p, hp, hpv⟩ := List.mem_filterMap.mp hv
      exact ⟨p, hp, v, m, hpv, hmakes⟩
    obtain ⟨head, types, ⟨p, hp, v, m, hpv, hmakes⟩, -⟩ := explained_runVisits hmade hstart r hr
    rcases hmakes.owner_cases htop hpv with hnone | ⟨hdecl, howner⟩ | ⟨e, rest, hinside, hscope, howner⟩
    · exact hempty r hnone
    · rw [howner, hqualified]
      exact ownerName_ne_of_mem_before hdistinct hsplit hrecord hname hp hdecl
    · rw [howner, hqualified]
      obtain ⟨earlier, later, rfl⟩ := List.append_of_mem hp
      have hsplit' : occurrences [] u.decls = earlier ++ p :: (later ++ q :: after) := by
        rw [hsplit, List.append_assoc, List.cons_append]
      exact hsuffix hsplit' (List.subset_append_left _ _) hinside hscope
  · obtain rfl := List.mem_singleton.mp hr
    rcases hc.owner_cases htop with hnone | ⟨e, rest, hinside, hscope, howner⟩
    · exact hempty _ hnone
    · rw [howner, hqualified]
      exact hsuffix hsplit (List.Subset.refl _) hinside hscope

end Analysis

open Analysis

/-- **Types before members.** In a unit in which no named record has the name of another record, where a
record without a name counts as `(anonymous)`, every class of the result stands before whatever has it
as its owner. -/
theorem types_before_members (o : Options) (u : TranslationUnit) (h : u.check o = .ok ())
    (hdistinct : (occurrences [] u.decls).Pairwise fun p q => ¬ p.Confused q) :
    ∃ result, analyze o u = .ok result ∧ ∀ (i j : Nat) (c r : ExportRecord),
      result.records[i]? = some c → result.records[j]? = some r → c.kind = .classType →
        r.ownerType = c.qualifiedName → i < j := by
  have hvisits : visits (Context.ofUnit o u) u.decls =
      (occurrences [] u.decls).filterMap (·.visit? (Context.ofUnit o u)) :=
    visits_eq_filterMap [] rfl u.decls
  have hfirst : (finalState o u).TypesFirst := by
    rw [finalState_eq_runVisits]
    refine typesFirst_runVisits fun before v after hsplit c ts hc hkind hvalid => ?_
    rw [hvisits, List.filterMap_eq_append_iff] at hsplit
    obtain ⟨earlier, rest, hoccurrences, rfl, hrest⟩ := hsplit
    obtain ⟨skipped, q, later, rfl, hskipped, hvisit, -⟩ := List.filterMap_eq_cons_iff.mp hrest
    have hnone : skipped.filterMap (·.visit? (Context.ofUnit o u)) = [] :=
      List.filterMap_eq_nil_iff.mpr hskipped
    have hcombined : (earlier ++ skipped).filterMap (·.visit? (Context.ofUnit o u)) =
        earlier.filterMap (·.visit? (Context.ofUnit o u)) := by
      rw [List.filterMap_append, hnone, List.append_nil]
    rw [← hcombined]
    rw [← List.append_assoc] at hoccurrences
    exact ownerType_ne_qualifiedName hdistinct hoccurrences hvisit hc hkind hvalid
  refine ⟨_, analyze_of_check h, fun i j c r hi hj hkind howner => ?_⟩
  rcases Nat.lt_trichotomy i j with hlt | rfl | hlt
  · exact hlt
  · obtain rfl : c = r := Option.some.inj (hi.symm.trans hj)
    exact absurd howner (hfirst.itself c (List.mem_of_getElem? hi) hkind)
  · obtain ⟨hjlt, rfl⟩ := List.getElem?_eq_some_iff.mp hj
    obtain ⟨hilt, rfl⟩ := List.getElem?_eq_some_iff.mp hi
    exact absurd howner (List.pairwise_iff_getElem.mp hfirst.earlier j i hjlt hilt hlt hkind)

/-! ## After a record without a name -/

/-- What the visit to a class without bases does: the class, and then its own members. -/
theorem Analysis.Visit.run_class_of_no_bases {ctx : Context} {h : Header} {members : List Decl}
    {a : Directive} (ha : ctx.verdict (.record h {} members) = .admitted (some a))
    (hname : Text.isBlankText h.name = false) (s : State) :
    (⟨ctx, .record h {} members⟩ : Visit).run s =
      (exportMembers (ctx.enterClass h a) (ctx.classOwner h {} members a) .own members
        { state := (s.visit ctx (.record h {} members)).emit (ctx.classRecord h {} members a) }).state := by
  have hdirective : (⟨ctx, .record h {} members⟩ : Visit).verdict.directive = some a :=
    congrArg Verdict.directive ha
  rw [Visit.run_class rfl hdirective hname]
  simp only [exportClassMembers, classSurface, TypeIndex.ancestry_nil]
  rfl

/-- A record without a name, with an exported field. -/
def namelessOwner : Decl :=
  .record {} {}
    [.field { name := "x", annotations := ["lua_export_variable"] } { type := .builtin "int" }]

/-- The record without a name, and a class with a field. -/
def heroUnit : TranslationUnit :=
  { filePath := "d.h"
    decls := [namelessOwner, .record { name := "Hero", annotations := ["lua_export_class"] } {}
      [.field { name := "y" } { type := .builtin "int" }]] }

/-- A field of the class stands after the class, and the class after the field of the other record. -/
theorem types_before_members_after_nameless :
    heroUnit.check {} = .ok () ∧
    ((occurrences [] heroUnit.decls).Pairwise fun p q => ¬ p.Confused q) ∧
    ∃ result, analyze {} heroUnit = .ok result ∧
      (result.records.map fun r => (r.kind, r.qualifiedName, r.ownerType)) =
        [(.property, "(anonymous)::x", "(anonymous)"), (.classType, "Hero", ""),
          (.property, "Hero::y", "Hero")] ∧
      ∀ (i j : Nat) (c r : ExportRecord), result.records[i]? = some c → result.records[j]? = some r →
        c.kind = .classType → r.ownerType = c.qualifiedName → i < j := by
  have haccepted : heroUnit.check {} = .ok () := TranslationUnit.check_default (by decide) rfl
  have hdistinct : (occurrences [] heroUnit.decls).Pairwise fun p q => ¬ p.Confused q := by decide
  obtain ⟨result, hresult, horder⟩ := types_before_members {} heroUnit haccepted hdistinct
  refine ⟨haccepted, hdistinct, result, hresult, ?_, horder⟩
  obtain rfl := Except.ok.inj ((analyze_of_check haccepted).symm.trans hresult)
  have hvisits : visits (Context.ofUnit {} heroUnit) heroUnit.decls =
      [⟨Context.ofUnit {} heroUnit, namelessOwner⟩, ⟨Context.ofUnit {} heroUnit, .record
        { name := "Hero", annotations := ["lua_export_class"] } {}
        [.field { name := "y" } { type := .builtin "int" }]⟩] := by rfl
  have hclass : (Context.ofUnit {} heroUnit).verdict
      (.record { name := "Hero", annotations := ["lua_export_class"] } {}
        [.field { name := "y" } { type := .builtin "int" }]) = .admitted (some ⟨.classType, {}⟩) := by
    rfl
  rw [finalState_eq_runVisits, hvisits, runVisits_cons, runVisits_cons, runVisits_nil,
    Visit.run_class_of_no_bases hclass (by decide)]
  rfl

/-- The record without a name, and a class that is named like the placeholder. -/
def placeholderUnit : TranslationUnit :=
  { filePath := "d.h"
    decls := [namelessOwner,
      .record { name := "(anonymous)", annotations := ["lua_export_class"] } {} []] }

/-- A class that is named like the placeholder stands behind what the record without a name owns,
although no two records have the same qualified name. -/
theorem member_before_anonymous_class :
    placeholderUnit.check {} = .ok () ∧
    ((occurrences [] placeholderUnit.decls).Pairwise fun p q =>
      p.decl.isRecord = true → q.decl.isRecord = true → p.qualifiedName ≠ q.qualifiedName) ∧
    ∃ result, analyze {} placeholderUnit = .ok result ∧
      (result.records.map fun r => (r.kind, r.qualifiedName, r.ownerType)) =
        [(.property, "(anonymous)::x", "(anonymous)"), (.classType, "(anonymous)", "")] := by
  have haccepted : placeholderUnit.check {} = .ok () := TranslationUnit.check_default (by decide) rfl
  have hvisits : visits (Context.ofUnit {} placeholderUnit) placeholderUnit.decls =
      [⟨Context.ofUnit {} placeholderUnit, namelessOwner⟩,
        ⟨Context.ofUnit {} placeholderUnit, .record
          { name := "(anonymous)", annotations := ["lua_export_class"] } {} []⟩] := by rfl
  have hclass : (Context.ofUnit {} placeholderUnit).verdict
      (.record { name := "(anonymous)", annotations := ["lua_export_class"] } {} []) =
        .admitted (some ⟨.classType, {}⟩) := by rfl
  refine ⟨haccepted, by decide, _, analyze_of_check haccepted, ?_⟩
  rw [finalState_eq_runVisits, hvisits, runVisits_cons, runVisits_cons, runVisits_nil,
    Visit.run_class_of_no_bases hclass (by decide)]
  rfl

end ScriptExport
