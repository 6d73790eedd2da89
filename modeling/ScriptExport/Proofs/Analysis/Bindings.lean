import ScriptExport.Proofs.Analysis.Inheritance
import ScriptExport.Proofs.Lists

/-!
# The bases that a class is bound to

The ancestry of a class is found by going through simple paths: a type is never entered below itself.
No type is lost that way. A chain of public bases that comes through a type twice can be cut there, so
what a chain leads to (`Leads`) is what is found (`mem_ancestry_iff`). The bindings of all classes then
go through one gate, where the text `owner : base` tells them apart. A class is bound to what its chains
lead to, except where an earlier class has left the same text behind (`exists_inherit_iff`), which takes
a class name with ` :` in it (`append_colon_inj`).
-/

namespace ScriptExport

namespace TypeIndex

/-! ## Chains of bases -/

/-- A chain of public bases leads from a base list in `scope` to a type. Each base is looked up in the
scope of the type that names it, no type of the chain is one of `avoid`, and none but the last is
exported. -/
inductive Leads (index : TypeIndex) (avoid : List String) :
    (scope : List String) → List Base → TypeEntry → Prop where
  | base {scope : List String} {bases : List Base} {base : Base} {e : TypeEntry}
    (named : base ∈ bases) (isPublic : base.access.isPublic = true)
    (found : index.lookup? base.name scope = some e) (outside : e.qualifiedName ∉ avoid) :
    Leads index avoid scope bases e
  | above {scope : List String} {bases : List Base} {base : Base} {mid e : TypeEntry}
    (named : base ∈ bases) (isPublic : base.access.isPublic = true)
    (found : index.lookup? base.name scope = some mid) (outside : mid.qualifiedName ∉ avoid)
    (unexported : mid.annotated = false) (rest : Leads index avoid mid.scope mid.decl.bases e) :
    Leads index avoid scope bases e

section Leads

variable {index : TypeIndex} {avoid scope : List String} {bases : List Base} {e : TypeEntry}

theorem Leads.of_cons {base : Base} (h : index.Leads avoid scope bases e) :
    index.Leads avoid scope (base :: bases) e := by
  cases h with
  | base named isPublic found outside =>
    exact .base (List.mem_cons_of_mem _ named) isPublic found outside
  | above named isPublic found outside unexported rest =>
    exact .above (List.mem_cons_of_mem _ named) isPublic found outside unexported rest

/-- A way that avoids more types is a way. -/
theorem Leads.mono {q : String} (h : index.Leads (q :: avoid) scope bases e) :
    index.Leads avoid scope bases e := by
  induction h with
  | base named isPublic found outside =>
    exact .base named isPublic found (fun hmem => outside (List.mem_cons_of_mem q hmem))
  | above named isPublic found outside unexported _ ih =>
    exact .above named isPublic found (fun hmem => outside (List.mem_cons_of_mem q hmem)) unexported ih

theorem Leads.mem_entries (h : index.Leads avoid scope bases e) : e ∈ index.entries := by
  induction h with
  | base _ _ found _ => exact mem_of_lookup? found
  | above _ _ _ _ _ _ ih => exact ih

/-- Whatever is in the ancestry is reached on a way of public bases. -/
theorem leads_of_mem_ancestry (h : e ∈ index.ancestry avoid scope bases) :
    index.Leads avoid scope bases e := by
  fun_induction ancestry index avoid scope bases with
  | case1 => cases h
  | case2 _ _ _ _ _ _ ih => exact (ih h).of_cons
  | case3 _ _ _ _ _ _ _ _ ih => exact (ih h).of_cons
  | case4 _ _ _ _ isPublic _ found outside _ ih =>
    rcases List.mem_cons.mp h with rfl | h
    · exact .base List.mem_cons_self isPublic found outside
    · exact (ih h).of_cons
  | case5 _ _ _ _ isPublic mid found outside unexported ihAbove ih =>
    rcases List.mem_cons.mp h with rfl | h
    · exact .base List.mem_cons_self isPublic found outside
    · rcases List.mem_append.mp h with h | h
      · exact .above List.mem_cons_self isPublic found outside (by simpa using unexported)
          (ihAbove h).mono
      · exact (ih h).of_cons
  | case6 _ _ _ _ _ ih => exact (ih h).of_cons

/-- A chain either stays away from `mid`, or its end is reached from the last place where it comes
through `mid`. -/
theorem Leads.cut (hd : index.Distinct) {mid : TypeEntry} (hmid : mid ∈ index.entries)
    (h : index.Leads avoid scope bases e) (hne : e.qualifiedName ≠ mid.qualifiedName) :
    index.Leads (mid.qualifiedName :: avoid) scope bases e ∨
      index.Leads (mid.qualifiedName :: avoid) mid.scope mid.decl.bases e := by
  induction h with
  | base named isPublic found outside =>
    left
    apply Leads.base named isPublic found
    intro hmem
    rcases List.mem_cons.mp hmem with heq | hmem
    · exact hne heq
    · exact outside hmem
  | @above scope bases _ k e named isPublic found outside unexported _ ih =>
    rcases ih hne with hrest | hrest
    · by_cases hk : k.qualifiedName = mid.qualifiedName
      · right
        rwa [List.inj_on_of_nodup_map hd (mem_of_lookup? found) hmid hk] at hrest
      · left
        refine .above named isPublic found ?_ unexported hrest
        intro hmem
        rcases List.mem_cons.mp hmem with heq | hmem
        · exact hk heq
        · exact outside hmem
    · exact .inr hrest

/-- Whatever is reached on a way of public bases is in the ancestry. -/
theorem mem_ancestry_of_leads (hd : index.Distinct) (h : index.Leads avoid scope bases e) :
    e ∈ index.ancestry avoid scope bases := by
  induction hn : index.unmet avoid using Nat.strongRecOn
    generalizing avoid scope bases e with
  | _ n ih =>
    cases h with
    | base named isPublic found outside =>
      exact mem_ancestry_of_mem_bases named isPublic found outside
    | @above _ _ base mid _ named isPublic found outside unexported rest =>
      have hmid := mem_of_lookup? found
      by_cases hq : e.qualifiedName = mid.qualifiedName
      · have he : e ∈ index.entries := rest.mem_entries
        rw [List.inj_on_of_nodup_map hd he hmid hq]
        exact mem_ancestry_of_mem_bases named isPublic found outside
      · -- both ways out of the cut start at the bases of `mid`
        have hrest : index.Leads (mid.qualifiedName :: avoid) mid.scope mid.decl.bases e :=
          (rest.cut hd hmid hq).elim id id
        have hless := unmet_cons_lt hmid outside
        have habove := ih _ (hn ▸ hless) hrest rfl
        apply entered_subset_ancestry named isPublic
        rw [found, entered, if_neg outside, if_neg (by simp [unexported])]
        exact List.mem_cons_of_mem mid habove

theorem mem_ancestry_iff (hd : index.Distinct) :
    e ∈ index.ancestry avoid scope bases ↔ index.Leads avoid scope bases e :=
  ⟨leads_of_mem_ancestry, mem_ancestry_of_leads hd⟩

end Leads

end TypeIndex

/-! ## Texts of bindings -/

/-- The separator of a binding cannot be shifted to the right. -/
theorem eq_nil_of_colon_append {x b d : List Char} (hx : ¬ [' ', ':'] <:+: x)
    (h : ' ' :: ':' :: ' ' :: b = x ++ ' ' :: ':' :: ' ' :: d) : x = [] := by
  match x, h with
  | [], _ => rfl
  | [c], h =>
    have hcolon : ':' = ' ' := (List.cons.inj (List.cons.inj h).2).1
    exact absurd hcolon (by decide)
  | c :: c' :: x, h =>
    obtain ⟨rfl, htail⟩ := List.cons.inj h
    obtain ⟨rfl, -⟩ := List.cons.inj htail
    exact absurd ⟨[], x, rfl⟩ hx

/-- The text of a binding tells its owner where no owner has ` :` in its name. -/
theorem append_colon_inj {owner base owner' base' : String}
    (howner : ¬ [' ', ':'] <:+: owner.toList) (howner' : ¬ [' ', ':'] <:+: owner'.toList)
    (h : owner ++ " : " ++ base = owner' ++ " : " ++ base') : owner = owner' := by
  have hlist : owner.toList ++ ' ' :: ':' :: ' ' :: base.toList =
      owner'.toList ++ ' ' :: ':' :: ' ' :: base'.toList := by
    simpa using congrArg String.toList h
  apply String.toList_injective
  rcases List.append_eq_append_iff.mp hlist with ⟨x, hx, htail⟩ | ⟨x, hx, htail⟩
  · have hfree : ¬ [' ', ':'] <:+: x := by
      intro hinfix
      apply howner'
      rw [hx]
      exact hinfix.trans (List.suffix_append _ _).isInfix
    rw [hx, eq_nil_of_colon_append hfree htail, List.append_nil]
  · have hfree : ¬ [' ', ':'] <:+: x := by
      intro hinfix
      apply howner
      rw [hx]
      exact hinfix.trans (List.suffix_append _ _).isInfix
    rw [hx, eq_nil_of_colon_append hfree htail, List.append_nil]

namespace Analysis

/-! ## What a visit binds -/

/-- The visit exports the class `owner`, and a chain of public bases leads from it to the exported type
`base` without coming back to the class. -/
def Visit.Binds (v : Visit) (owner base : String) : Prop :=
  (∃ c, v.exportedClass? = some c ∧ c.qualifiedName = owner) ∧
    ∃ e, e.qualifiedName = base ∧ e.annotated = true ∧
      v.ctx.index.Leads [owner] v.ctx.scopes.path v.decl.bases e

/-- A visit binds a class to a type if one of its bindings says so. -/
theorem Visit.binds_iff {v : Visit} (hd : v.ctx.index.Distinct) {owner base : String} :
    v.Binds owner base ↔ ∃ r ∈ v.bindings, r.ownerType = owner ∧ r.name = base := by
  constructor
  · rintro ⟨⟨c, hc, rfl⟩, e, rfl, hannotated, hleads⟩
    obtain ⟨head, traits, members, a, hdecl, hdirective, rfl, hvalid⟩ :=
      Visit.exportedClass?_eq_some hc
    rw [hdecl] at hleads
    refine ⟨_, Visit.mem_bindings_iff.mpr ⟨head, traits, members, a, hdecl, hdirective, hvalid, e, ?_,
      hannotated, rfl⟩, rfl, rfl⟩
    exact TypeIndex.mem_ancestry_of_leads hd hleads
  · rintro ⟨r, hr, rfl, rfl⟩
    obtain ⟨head, traits, members, a, hdecl, hdirective, hvalid, e, he, hannotated, rfl⟩ :=
      Visit.mem_bindings_iff.mp hr
    refine ⟨⟨_, Visit.exportedClass?_of_isValid hdecl hdirective hvalid, rfl⟩, e, rfl, hannotated, ?_⟩
    rw [hdecl]
    exact TypeIndex.leads_of_mem_ancestry he

theorem Visit.qualifiedName_of_mem_bindings {v : Visit} {r : ExportRecord} (hr : r ∈ v.bindings) :
    r.qualifiedName = r.ownerType ++ " : " ++ r.name := by
  obtain ⟨head, traits, members, a, -, -, -, e, -, -, rfl⟩ := Visit.mem_bindings_iff.mp hr
  rfl

/-- The bindings that a visit offers are those to the exported bases. -/
theorem Visit.offers_inherit {v : Visit} (hd : v.ctx.index.Distinct)
    (hnamed : ∀ e ∈ v.ctx.index.entries, Text.isBlankText e.qualifiedName = false) :
    v.Offers .inherit (·.bindings) where
  adds r hadds hkind _ := hadds.inherit hkind
  identity r hr := by
    obtain ⟨head, traits, members, a, -, -, -, e, -, -, rfl⟩ := Visit.mem_bindings_iff.mp hr
    rfl
  kept r hr s := by
    apply Visit.identity_mem_run_of_mem_bindings hr
    obtain ⟨head, traits, members, a, -, -, -, e, he, -, rfl⟩ := Visit.mem_bindings_iff.mp hr
    exact isValid_inheritRecord (hnamed e (TypeIndex.mem_entries_of_mem_ancestry he)) _ _ _
  single r hr r' hr' hq := by
    obtain ⟨head, traits, members, a, hdecl, hdirective, -, e, he, -, rfl⟩ :=
      Visit.mem_bindings_iff.mp hr
    obtain ⟨head', traits', members', a', hdecl', hdirective', -, e', he', -, rfl⟩ :=
      Visit.mem_bindings_iff.mp hr'
    cases hdecl.symm.trans hdecl'
    cases hdirective.symm.trans hdirective'
    have hname : e.qualifiedName = e'.qualifiedName := String.append_right_inj _ |>.mp hq
    rw [List.inj_on_of_nodup_map hd (TypeIndex.mem_entries_of_mem_ancestry he)
      (TypeIndex.mem_entries_of_mem_ancestry he') hname]

/-! ## What a walk binds -/

/-- Whether a record binds the class `owner` to the type `base`. -/
def isBinding (owner base : String) (r : ExportRecord) : Bool :=
  r.kind == .inherit && r.ownerType == owner && r.name == base

theorem isBinding_iff {owner base : String} {r : ExportRecord} :
    isBinding owner base r = true ↔ r.kind = .inherit ∧ r.ownerType = owner ∧ r.name = base := by
  simp [isBinding, and_assoc]

/-- The visit binds the class to the type, and none of those before it binds anything by the same
text. -/
def BindsFirst (before : List Visit) (v : Visit) (owner base : String) : Prop :=
  v.Binds owner base ∧ ∀ w ∈ before, ∀ owner' base', w.Binds owner' base' →
    owner' ++ " : " ++ base' ≠ owner ++ " : " ++ base

section Walks

variable {o : Options} {u : TranslationUnit}

theorem distinct_of_mem_visits {v : Visit} (hv : v ∈ visits (Context.ofUnit o u) u.decls) :
    v.ctx.index.Distinct := by
  rw [index_of_mem_visits hv]
  exact TypeIndex.distinct_ofDecls o u.decls

theorem offers_inherit_of_mem_visits {v : Visit} (hv : v ∈ visits (Context.ofUnit o u) u.decls) :
    v.Offers .inherit (·.bindings) := by
  apply Visit.offers_inherit (distinct_of_mem_visits hv)
  intro e he
  rw [index_of_mem_visits hv] at he
  exact TypeIndex.isBlankText_of_mem_entries he

theorem qualifiedName_of_inherit {r : ExportRecord} (hr : r ∈ (finalState o u).records.toList)
    (hkind : r.kind = .inherit) : r.qualifiedName = r.ownerType ++ " : " ++ r.name := by
  rw [finalState_eq_runVisits] at hr
  obtain ⟨v, -, hadds, -⟩ := adds_of_mem_records hr
  exact Visit.qualifiedName_of_mem_bindings (hadds.inherit hkind)

/-- The result binds a class to a type exactly if some visit does so first. -/
theorem exists_inherit_iff {owner base : String} :
    (∃ r ∈ (finalState o u).records.toList, isBinding owner base r = true) ↔
      ∃ before v after, visits (Context.ofUnit o u) u.decls = before ++ v :: after ∧
        BindsFirst before v owner base := by
  have hoffers : ∀ v ∈ visits (Context.ofUnit o u) u.decls, v.Offers .inherit (·.bindings) :=
    fun v hv => offers_inherit_of_mem_visits hv
  have hbinds : ∀ v ∈ visits (Context.ofUnit o u) u.decls, ∀ owner base,
      v.Binds owner base ↔ ∃ r ∈ v.bindings, r.ownerType = owner ∧ r.name = base :=
    fun v hv owner base => Visit.binds_iff (distinct_of_mem_visits hv)
  have hfirst := exists_offered_iff hoffers (owner ++ " : " ++ base)
    (fun r => r.ownerType = owner ∧ r.name = base)
  rw [← finalState_eq_runVisits] at hfirst
  constructor
  · rintro ⟨r, hr, hbinding⟩
    obtain ⟨hkind, rfl, rfl⟩ := isBinding_iff.mp hbinding
    obtain ⟨r', hfind, howner, hname⟩ :=
      hfirst.mp ⟨r, hr, hkind, qualifiedName_of_inherit hr hkind, rfl, rfl⟩
    obtain ⟨before, v, after, hvisits, ⟨hr', -⟩, hbefore⟩ :=
      (find?_offered_eq_some_iff hoffers).mp hfind
    refine ⟨before, v, after, hvisits, ?_, ?_⟩
    · exact (hbinds v (by simp [hvisits]) _ _).mpr ⟨r', hr', howner, hname⟩
    · intro w hw owner' base' hw' htext
      obtain ⟨r'', hr'', rfl, rfl⟩ := (hbinds w (by simp [hvisits, hw]) _ _).mp hw'
      apply hbefore w hw r'' hr''
      rw [Visit.qualifiedName_of_mem_bindings hr'', htext]
  · rintro ⟨before, v, after, hvisits, hv, hbefore⟩
    obtain ⟨r, hr, rfl, rfl⟩ := (hbinds v (by simp [hvisits]) _ _).mp hv
    have hfind := (find?_offered_eq_some_iff hoffers).mpr ⟨before, v, after, hvisits,
      ⟨hr, Visit.qualifiedName_of_mem_bindings hr⟩, ?_⟩
    · obtain ⟨r', hr', hkind, -, howner, hname⟩ := hfirst.mpr ⟨r, hfind, rfl, rfl⟩
      exact ⟨r', hr', isBinding_iff.mpr ⟨hkind, howner, hname⟩⟩
    · intro w hw r' hr' hq
      refine hbefore w hw _ _ ((hbinds w (by simp [hvisits, hw]) _ _).mpr ⟨r', hr', rfl, rfl⟩) ?_
      rw [← Visit.qualifiedName_of_mem_bindings hr', hq]

/-- A class is bound to a type once. -/
theorem countP_isBinding_le_one (owner base : String) :
    (finalState o u).records.toList.countP (isBinding owner base) ≤ 1 := by
  let binding : Identity := ⟨.inherit, owner ++ " : " ++ base, [], false⟩
  have hidentity : ∀ r ∈ (finalState o u).records.toList, isBinding owner base r = true →
      (r.identity == binding) = true := by
    intro r hr hbinding
    obtain ⟨hkind, rfl, rfl⟩ := isBinding_iff.mp hbinding
    have hq := qualifiedName_of_inherit hr hkind
    rw [finalState_eq_runVisits] at hr
    rw [beq_iff_eq, identity_of_offered (fun v hv => offers_inherit_of_mem_visits hv) hr hkind, hq]
  have hnodup : ((finalState o u).records.toList.map (·.identity)).Nodup := by
    rw [finalState_eq_runVisits]
    exact (sound_runVisits _).distinct
  calc (finalState o u).records.toList.countP (isBinding owner base)
    _ ≤ (finalState o u).records.toList.countP (fun r => r.identity == binding) :=
        List.countP_mono_left hidentity
    _ = ((finalState o u).records.toList.map (·.identity)).count binding := by
        rw [List.count_eq_countP, List.countP_map]
        rfl
    _ ≤ 1 := List.nodup_iff_count_le_one.mp hnodup binding

end Walks

end Analysis

open Analysis

/-- **Bindings of a class.** In an accepted unit, let a visit export a class whose qualified name no
other exported class has. For each type the result has at most one record that binds the class to it. It
has one exactly if the type is exported, is another one, and a chain of public bases through unexported
types leads to it without coming back to the class, and if no earlier class was bound by the same text.
Where no class up to this one has ` :` in its name, texts do not clash. -/
theorem class_bound_to_exported_bases (o : Options) (u : TranslationUnit)
    (haccepted : u.check o = .ok ()) (before after : List Visit) (v : Visit)
    (hvisits : visits (Context.ofUnit o u) u.decls = before ++ v :: after) (c : ExportRecord)
    (hc : v.exportedClass? = some c)
    (honly : ∀ w ∈ before ++ after, ∀ c', w.exportedClass? = some c' →
      c'.qualifiedName ≠ c.qualifiedName) :
    ∃ result, analyze o u = .ok result ∧
      (∀ base, result.records.countP (isBinding c.qualifiedName base) ≤ 1 ∧
        (result.records.countP (isBinding c.qualifiedName base) = 1 ↔
          BindsFirst before v c.qualifiedName base)) ∧
      ((∀ w ∈ before ++ [v], ∀ c', w.exportedClass? = some c' →
          ¬ [' ', ':'] <:+: c'.qualifiedName.toList) →
        ∀ base, BindsFirst before v c.qualifiedName base ↔ v.Binds c.qualifiedName base) := by
  refine ⟨_, analyze_of_check haccepted, ?_, ?_⟩
  · intro base
    have hle : (finalState o u).records.toList.countP (isBinding c.qualifiedName base) ≤ 1 :=
      countP_isBinding_le_one c.qualifiedName base
    refine ⟨hle, ?_⟩
    have hpos : (finalState o u).records.toList.countP (isBinding c.qualifiedName base) = 1 ↔
        ∃ r ∈ (finalState o u).records.toList, isBinding c.qualifiedName base r = true := by
      rw [← List.countP_pos_iff]
      omega
    rw [hpos, exists_inherit_iff, hvisits]
    constructor
    · rintro ⟨before', v', after', hsplit, hfirst⟩
      have hother : ∀ w ∈ before ++ after,
          ¬ ∃ c', w.exportedClass? = some c' ∧ c'.qualifiedName = c.qualifiedName := by
        rintro w hw ⟨c', hc', hq⟩
        exact honly w hw c' hc' hq
      obtain ⟨rfl, rfl⟩ := eq_of_append_cons_eq hother hsplit hfirst.1.1
      exact hfirst
    · intro hfirst
      exact ⟨before, v, after, rfl, hfirst⟩
  · intro hplain base
    refine ⟨And.left, fun hbinds => ⟨hbinds, ?_⟩⟩
    rintro w hw owner' base' ⟨⟨c', hc', rfl⟩, -⟩ htext
    have howner := append_colon_inj (hplain w (by simp [hw]) c' hc') (hplain v (by simp) c hc) htext
    exact honly w (by simp [hw]) c' hc' howner

/-- Two classes whose bindings have the same text: the later one, whose chain leads to `B : C`, is not
bound. -/
theorem class_bound_to_exported_bases_same_text :
    let exported (name : String) (bases : List Base) : Decl :=
      .record { name := name, annotations := ["lua_export_class"] } { bases := bases } []
    let u : TranslationUnit :=
      { filePath := "d.h"
        decls := [exported "C" [], exported "B : C" [], exported "A : B" [{ name := "C" }],
          exported "A" [{ name := "B : C" }]] }
    ∃ result, analyze {} u = .ok result ∧
      result.records.countP (isBinding "A : B" "C") = 1 ∧
      (⟨Context.ofUnit {} u, exported "A" [{ name := "B : C" }]⟩ : Visit).Binds "A" "B : C" ∧
      result.records.countP (isBinding "A" "B : C") = 0 := by
  intro exported u
  have haccepted : u.check {} = .ok () := TranslationUnit.check_default (by decide) rfl
  let visitOf (name : String) (bases : List Base) : Visit :=
    ⟨Context.ofUnit {} u, exported name bases⟩
  have hone : ∀ name bases, visitsOf (Context.ofUnit {} u) (exported name bases) =
      [visitOf name bases] := by
    intro name bases
    rw [visitsOf_eq]
    cases (visitOf name bases).inside? <;> rfl
  have hvisits : visits (Context.ofUnit {} u) u.decls = [visitOf "C" [], visitOf "B : C" [],
      visitOf "A : B" [{ name := "C" }], visitOf "A" [{ name := "B : C" }]] := by
    simp only [u, visits, hone]
    rfl
  have hnames : ∀ p ∈ [("C", ([] : List Base)), ("B : C", []), ("A : B", [{ name := "C" }]),
      ("A", [{ name := "B : C" }])],
      (visitOf p.1 p.2).exportedClass?.map (·.qualifiedName) = some p.1 := by decide +kernel
  simp only [List.forall_mem_cons] at hnames
  obtain ⟨hC, hBC, hAB, hA, -⟩ := hnames
  have hother : ∀ {w : Visit} {q q' : String}, w.exportedClass?.map (·.qualifiedName) = some q →
      q ≠ q' → ∀ c', w.exportedClass? = some c' → c'.qualifiedName ≠ q' := by
    intro w q q' hw hne c' hc' hq
    rw [hc'] at hw
    exact hne ((Option.some.inj hw).symm.trans hq)
  obtain ⟨outer, houter, hqAB⟩ := Option.map_eq_some_iff.mp hAB
  obtain ⟨inner, hinner, hqA⟩ := Option.map_eq_some_iff.mp hA
  have hbinds : ∀ {owner base : String} {c : ExportRecord},
      (visitOf owner [{ name := base }]).exportedClass? = some c → c.qualifiedName = owner →
      ((TypeIndex.ofDecls {} u.decls).lookup? base []).map (fun e => (e.qualifiedName, e.annotated)) =
        some (base, true) → base ≠ owner → (visitOf owner [{ name := base }]).Binds owner base := by
    intro owner base c hc hq hlookup hne
    obtain ⟨e, hfound, hentry⟩ := Option.map_eq_some_iff.mp hlookup
    obtain ⟨rfl, hannotated⟩ := Prod.mk.inj hentry
    exact ⟨⟨c, hc, hq⟩, e, rfl, hannotated, .base List.mem_cons_self rfl hfound (by simpa using hne)⟩
  have hbindsAB := hbinds houter hqAB (by decide +kernel) (by decide)
  have hbindsA := hbinds hinner hqA (by decide +kernel) (by decide)
  -- a class without bases is bound to nothing
  have hnone : ∀ name owner base, ¬ (visitOf name []).Binds owner base := by
    rintro name owner base ⟨-, e, -, -, hleads⟩
    cases hleads with
    | base named => cases named
    | above named => cases named
  obtain ⟨result, hresult, hcount, -⟩ := class_bound_to_exported_bases {} u haccepted
    [visitOf "C" [], visitOf "B : C" []] [visitOf "A" [{ name := "B : C" }]] _ hvisits outer houter (by
      rw [hqAB]
      simp only [List.cons_append, List.nil_append, List.forall_mem_cons]
      exact ⟨hother hC (by decide), hother hBC (by decide), hother hA (by decide), by simp⟩)
  obtain ⟨result', hresult', hlater, -⟩ := class_bound_to_exported_bases {} u haccepted
    [visitOf "C" [], visitOf "B : C" [], visitOf "A : B" [{ name := "C" }]] [] _ hvisits inner hinner (by
      rw [hqA]
      simp only [List.append_nil, List.forall_mem_cons]
      exact ⟨hother hC (by decide), hother hBC (by decide), hother hAB (by decide), by simp⟩)
  cases hresult.symm.trans hresult'
  rw [hqAB] at hcount
  rw [hqA] at hlater
  refine ⟨result, hresult, (hcount "C").2.mpr ⟨hbindsAB, ?_⟩, hbindsA, ?_⟩
  · simp only [List.forall_mem_cons]
    exact ⟨fun owner base h => (hnone _ _ _ h).elim, fun owner base h => (hnone _ _ _ h).elim, by simp⟩
  · have hclash : ¬ BindsFirst [visitOf "C" [], visitOf "B : C" [], visitOf "A : B" [{ name := "C" }]]
        (visitOf "A" [{ name := "B : C" }]) "A" "B : C" := by
      rintro ⟨-, hfirst⟩
      exact hfirst _ (by simp) "A : B" "C" hbindsAB (by decide)
    have hle := (hlater "B : C").1
    have hne := mt (hlater "B : C").2.mp hclash
    omega

end ScriptExport
