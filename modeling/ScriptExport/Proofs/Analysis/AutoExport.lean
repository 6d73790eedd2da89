import ScriptExport.Proofs.Analysis.Flattening
import ScriptExport.Proofs.Analysis.Inertness
import ScriptExport.Proofs.Analysis.PropertyPartition

/-!
# Which members a class exports by itself

An exported class decides for each of its own members alone whether the member makes a record.
`Decl.IsOwnExport` states the rule on the declaration: its annotations must not exclude it, it must be
annotated or public and written in the source, and it must fit the class (`Decl.FitsClass`). The analysis
reads the same from what was parsed, one question after another (`memberAction`). Both agree member by
member (`isSome_candidate?_iff`), so the records that a class offers are known from its declaration alone.
-/

namespace ScriptExport

/-! ## What annotations say -/

/-- The kind words of the texts that have the marker. -/
def annotationWords (marker : String) (texts : List String) : List String :=
  texts.filterMap fun text => (annotationParts? marker text).map (·.1)

/-- The words are those behind the marker, in order. -/
theorem annotationWords_eq (marker : String) (texts : List String) :
    annotationWords marker texts = (texts.filter (hasMarker marker)).map (kindWord marker) := by
  unfold annotationWords
  rw [← List.filterMap_eq_map, List.filterMap_filter]
  congr 1
  funext text
  rw [annotationParts?_eq]
  cases hasMarker marker text <;> rfl

/-- The first known kind counts. -/
theorem kind_parseAnnotations (marker : String) (texts : List String) :
    (parseAnnotations marker texts).directive.map (·.kind) =
      (annotationWords marker texts).findSome? DirectiveKind.ofName? := by
  rw [(meaning_parseAnnotations marker texts).directive_eq, annotationWords_eq, Option.map_map,
    List.head?_filterMap, List.findSome?_map]
  induction texts with
  | nil => rfl
  | cons text texts ih =>
    rw [List.findSome?_cons, List.filter_cons]
    unfold statedDirective?
    cases hasMarker marker text with
    | false => exact ih
    | true =>
      rw [if_pos rfl, if_pos rfl, List.findSome?_cons, Function.comp_apply]
      cases DirectiveKind.ofName? (kindWord marker text) with
      | none => exact ih
      | some kind => rfl

theorem isMarked_eq_not_isEmpty (marker : String) (texts : List String) :
    (parseAnnotations marker texts).isMarked = !(annotationWords marker texts).isEmpty := by
  rw [isMarked_parseAnnotations, annotationWords_eq, Bool.eq_iff_iff]
  simp

/-! ## The rule for one member -/

namespace Decl

/-- The kind that the annotations of a declaration state: the first known one. -/
def statedKind? (marker : String) (d : Decl) : Option DirectiveKind :=
  (annotationWords marker d.annotations).findSome? DirectiveKind.ofName?

/-- The declaration is annotated with a kind that can describe it. -/
def IsAnnotated (marker : String) (d : Decl) : Prop :=
  ∃ kind, d.statedKind? marker = some kind ∧ kind.appliesTo d = true

/-- What a member must be to go onto a class with the directive, the traits and the members; a member
that is annotated is spared the question whether it is static. -/
inductive FitsClass (a : Directive) (traits : RecordTraits) (members : List Decl) (annotated : Prop) :
    Decl → Prop where
  | method {h : Header} {c : Callable} (present : c.isDeleted = false)
    (static : annotated ∨ a.kind ≠ .staticClass ∨ c.isStatic = true) :
    FitsClass a traits members annotated (.method h c)
  | field {h : Header} {info : Field}
    (static : annotated ∨ a.kind ≠ .staticClass ∨ info.isStatic = true) :
    FitsClass a traits members annotated (.field h info)
  | constructor {h : Header} {c : Callable} (present : c.isDeleted = false)
    (kind : a.kind ≠ .staticClass ∧ a.kind ≠ .singleton ∧ a.kind ≠ .abstractClass)
    (concrete : traits.isAbstract = false ∧ ∀ m ∈ members, Analysis.isPureMethod m = false) :
    FitsClass a traits members annotated (.constructor h c)

/-- An exported class makes a record of the member: no word of its annotations excludes it, it is shown,
and it fits the class. -/
structure IsOwnExport (marker : String) (a : Directive) (traits : RecordTraits) (members : List Decl)
    (d : Decl) : Prop where
  notIgnored : ignoreWord ∈ annotationWords marker d.annotations → d.IsAnnotated marker
  notRejected : ∀ word ∈ annotationWords marker d.annotations, word ≠ ignoreWord →
    (∀ kind, DirectiveKind.ofName? word = some kind → kind.appliesTo d = false) →
    d.IsAnnotated marker
  shown : d.IsAnnotated marker ∨ d.header.access.isPublic = true ∧ d.header.implicit = false
  fits : d.FitsClass a traits members (d.IsAnnotated marker)

/-- The kind of record that a member makes. -/
def ownKind? (marker : String) : Decl → Option ExportKind
  | .method h c =>
    if (Naming.operatorToken? h.name).isSome then some .operator
    else if c.isStatic then some .staticMethod
    else some .method
  | .constructor _ _ => some .constructor
  | .field h info =>
    match (Decl.field h info).statedKind? marker with
    | some kind => if kind = .constant then some .constant else some .property
    | none => if info.isStatic && info.isConst then some .constant else some .property
  | _ => none

variable {marker : String} {d : Decl}

/-- The directive that counts is the stated one, if its kind applies. -/
theorem kind_directive? : (d.directive? marker).map (·.kind) =
    (d.statedKind? marker).filter (·.appliesTo d) := by
  unfold directive? statedKind?
  rw [← kind_parseAnnotations, Option.filter_map]
  rfl

theorem isAnnotated_iff : d.IsAnnotated marker ↔ (d.directive? marker).isSome = true := by
  rw [← Option.isSome_map (f := (·.kind)), kind_directive?, Option.isSome_iff_exists]
  refine exists_congr fun kind => ?_
  rw [Option.filter_eq_some_iff]

/-- A member is left out if it is marked but not annotated. -/
theorem isExcluded_eq_false_iff (hd : d.isMemberOnly = true) : d.isExcluded marker = false ↔
    annotationWords marker d.annotations = [] ∨ d.IsAnnotated marker := by
  rw [isAnnotated_iff]
  unfold isExcluded
  rw [hd, isMarked_eq_not_isEmpty]
  cases annotationWords marker d.annotations <;> cases d.directive? marker <;> simp

/-- Either of the two ways to be excluded takes a word, and words that exclude in neither way annotate
the declaration. -/
theorem spared_iff : (annotationWords marker d.annotations = [] ∨ d.IsAnnotated marker) ↔
    (ignoreWord ∈ annotationWords marker d.annotations → d.IsAnnotated marker) ∧
    ∀ word ∈ annotationWords marker d.annotations, word ≠ ignoreWord →
      (∀ kind, DirectiveKind.ofName? word = some kind → kind.appliesTo d = false) →
      d.IsAnnotated marker := by
  constructor
  · rintro (hnone | hannotated)
    · rw [hnone]
      exact ⟨fun hignore => (List.not_mem_nil hignore).elim,
        fun word hword => (List.not_mem_nil hword).elim⟩
    · exact ⟨fun _ => hannotated, fun _ _ _ _ => hannotated⟩
  · rintro ⟨hignored, hrejected⟩
    cases hwords : annotationWords marker d.annotations with
    | nil => exact .inl rfl
    | cons word words =>
      rw [hwords] at hignored hrejected
      refine .inr ?_
      by_cases hannotates : ∃ kind, DirectiveKind.ofName? word = some kind ∧ kind.appliesTo d = true
      · obtain ⟨kind, hkind, happlies⟩ := hannotates
        refine ⟨kind, ?_, happlies⟩
        unfold statedKind?
        rw [hwords, List.findSome?_cons, hkind]
      · by_cases hignore : word = ignoreWord
        · exact hignored (hignore ▸ List.mem_cons_self)
        · refine hrejected word List.mem_cons_self hignore fun kind hkind => ?_
          exact Bool.eq_false_iff.mpr fun happlies => hannotates ⟨kind, hkind, happlies⟩

/-- For a member that is not left out the stated kind counts. -/
theorem kind_directive?_of_kept (hd : d.isMemberOnly = true) (hkept : d.isExcluded marker = false) :
    (d.directive? marker).map (·.kind) = d.statedKind? marker := by
  rw [kind_directive?]
  rcases (isExcluded_eq_false_iff hd).mp hkept with hnone | ⟨kind, hkind, happlies⟩
  · unfold statedKind?
    rw [hnone]
    rfl
  · rw [hkind, Option.filter_some, if_pos happlies]

end Decl

variable {members : List Decl} {marker : String}

namespace Analysis

/-! ## What one member makes -/

/-- Whether the member makes a record. -/
def MemberAction.isOffer : MemberAction → Bool
  | .callable .. | .field .. => true
  | .nothing | .skip _ => false

theorem isOffer_skip_or_iff {b : Bool} {reason : SkipReason} {action : MemberAction} :
    (if b then .skip reason else action : MemberAction).isOffer = true ↔
      b = false ∧ action.isOffer = true := by
  cases b <;> simp [MemberAction.isOffer]

theorem ClassKind.of_eq_staticOnly_iff {kind : DirectiveKind} {isAbstract : Bool} :
    ClassKind.of kind isAbstract members = .staticOnly ↔
      kind = .staticClass := by
  unfold ClassKind.of
  split
  · simp
  · simp
  · simp
  · next hstatic _ _ =>
    refine ⟨fun h => ?_, fun h => (hstatic h).elim⟩
    split at h <;> cases h

/-- A plain class is none of the special kinds and nothing in it is abstract. -/
theorem ClassKind.of_eq_plain_iff {kind : DirectiveKind} {isAbstract : Bool} :
    ClassKind.of kind isAbstract members = .plain ↔
      (kind ≠ .staticClass ∧ kind ≠ .singleton ∧ kind ≠ .abstractClass) ∧
      isAbstract = false ∧ ∀ m ∈ members, isPureMethod m = false := by
  unfold ClassKind.of
  split
  · simp
  · simp
  · simp
  · next hstatic hsingleton habstract =>
    have hkind : kind ≠ .staticClass ∧ kind ≠ .singleton ∧ kind ≠ .abstractClass :=
      ⟨hstatic, hsingleton, habstract⟩
    rw [and_iff_right hkind]
    cases isAbstract with
    | true => simp
    | false =>
      cases hany : members.any isPureMethod with
      | true => simpa using List.any_eq_true.mp hany
      | false => simpa using List.any_eq_false.mp hany

section Members

variable (ctx : Context) (h : Header) (traits : RecordTraits) (members : List Decl) (a : Directive)
  {d : Decl}

/-- A declared member is offered exactly if it fits its class. -/
theorem isOffer_declaredAction_iff (explicit : Bool) :
    (declaredAction (ctx.classOwner h traits members a) .own explicit d).isOffer = true ↔
      d.FitsClass a traits members (explicit = true) := by
  have hstatic : (ctx.classOwner h traits members a).classKind = .staticOnly ↔
      a.kind = .staticClass := ClassKind.of_eq_staticOnly_iff
  have hplain : (ctx.classOwner h traits members a).classKind = .plain ↔ _ :=
    ClassKind.of_eq_plain_iff
  -- only a class of static members asks whether a member is static
  have hspared : ∀ isStatic : Bool,
      ((ctx.classOwner h traits members a).classKind = .staticOnly && !explicit && !isStatic) = false ↔
        explicit = true ∨ a.kind ≠ .staticClass ∨ isStatic = true := by
    intro isStatic
    rw [ne_eq, ← hstatic]
    cases explicit <;> cases isStatic <;> simp
  cases d with
  | method _ c =>
    rw [declaredAction, isOffer_skip_or_iff, isOffer_skip_or_iff, hspared]
    constructor
    · rintro ⟨hpresent, hstatic, -⟩
      exact .method hpresent hstatic
    · intro hfits
      cases hfits with
      | method hpresent hstatic => exact ⟨hpresent, hstatic, rfl⟩
  | field _ info =>
    rw [declaredAction, isOffer_skip_or_iff, hspared]
    constructor
    · rintro ⟨hstatic, -⟩
      exact .field hstatic
    · intro hfits
      cases hfits with
      | field hstatic => exact ⟨hstatic, rfl⟩
  | constructor _ c =>
    have hallowed : (MemberSource.own.isInherited || c.isDeleted ||
        decide ((ctx.classOwner h traits members a).classKind ≠ .plain)) = false ↔
          c.isDeleted = false ∧ (ctx.classOwner h traits members a).classKind = .plain := by
      simp [MemberSource.isInherited]
    rw [declaredAction, isOffer_skip_or_iff, hallowed, hplain]
    constructor
    · rintro ⟨⟨hpresent, hkind, hconcrete⟩, -⟩
      exact .constructor hpresent hkind hconcrete
    · intro hfits
      cases hfits with
      | constructor hpresent hkind hconcrete => exact ⟨⟨hpresent, hkind, hconcrete⟩, rfl⟩
  | _ =>
    refine ⟨fun hoffer => ?_, fun hfits => ?_⟩
    · cases hoffer
    · cases hfits

/-- What an exported class asks of a member, given what its annotations mean. -/
theorem isOffer_markMember_iff (hmember : d.isMemberOnly = true) :
    (memberAction (ctx.classOwner h traits members a) .own (markMember marker d)).isOffer = true ↔
      d.isExcluded marker = false ∧
      ((d.directive? marker).isSome = true ∨
        d.header.access.isPublic = true ∧ d.header.implicit = false) ∧
      (declaredAction (ctx.classOwner h traits members a) .own (d.directive? marker).isSome d).isOffer
        = true := by
  unfold memberAction
  rw [decl_markMember, directive_markMember hmember, ← isExcluded_markMember, MemberMark.isExcluded,
    Bool.or_eq_false_iff, hmember, if_neg (by decide), isOffer_skip_or_iff, isOffer_skip_or_iff,
    and_assoc]
  refine and_congr_right fun _ => and_congr_right fun _ => ?_
  cases (d.directive? marker).isSome with
  | true => simp
  | false =>
    -- members of an exported class go onto it without a directive
    have hauto : (ctx.classOwner h traits members a).auto = true := rfl
    rw [if_neg (by decide), hauto, if_neg (by decide), isOffer_skip_or_iff, isOffer_skip_or_iff]
    simp only [Bool.false_eq_true, false_or, Bool.not_eq_false']
    exact and_left_comm.trans and_assoc.symm

/-- The decision agrees with the rule. -/
theorem isOffer_memberAction_iff :
    (memberAction (ctx.classOwner h traits members a) .own (markMember marker d)).isOffer = true ↔
      d.IsOwnExport marker a traits members := by
  cases hmember : d.isMemberOnly with
  | false =>
    unfold memberAction
    rw [decl_markMember, hmember]
    refine ⟨fun hoffer => ?_, fun hexport => ?_⟩
    · cases hoffer
    · cases hexport.fits <;> cases hmember
  | true =>
    rw [isOffer_markMember_iff ctx h traits members a hmember, Decl.isExcluded_eq_false_iff hmember,
      Decl.spared_iff, isOffer_declaredAction_iff, ← Decl.isAnnotated_iff]
    constructor
    · rintro ⟨⟨hignored, hrejected⟩, hshown, hfits⟩
      exact ⟨hignored, hrejected, hshown, hfits⟩
    · rintro ⟨hignored, hrejected, hshown, hfits⟩
      exact ⟨⟨hignored, hrejected⟩, hshown, hfits⟩

end Members

/-! ## What the own members of a class make -/

/-- A member of its own makes a record if the decision says so. -/
theorem isSome_candidate?_eq (ctx : Context) (owner : Owner) (constants : OrderedMap String Int64)
    (source : MemberSource) (m : Member) :
    ((⟨source, m, .member⟩ : Place).candidate? ctx owner constants).isSome =
      (memberAction owner source m).isOffer := by
  unfold Place.candidate? Place.action
  dsimp only
  cases memberAction owner source m with
  | nothing => rfl
  | skip reason => rfl
  | callable kind h c => rfl
  | field h info =>
    dsimp only
    split <;> rfl

/-- The class makes a record of a member of its own exactly if the rule says so. -/
theorem isSome_candidate?_iff (ctx : Context) (h : Header) (traits : RecordTraits)
    (members : List Decl) (a : Directive) {d : Decl} (inside : Context)
    (constants : OrderedMap String Int64) :
    ((⟨.own, markMember marker d, .member⟩ : Place).candidate? inside
      (ctx.classOwner h traits members a) constants).isSome = true ↔
        d.IsOwnExport marker a traits members := by
  rw [isSome_candidate?_eq]
  exact isOffer_memberAction_iff ctx h traits members a

theorem ownKind?_method (h : Header) (c : Callable) :
    (Decl.method h c).ownKind? marker = some (methodKind h c) := by
  rw [Decl.ownKind?, methodKind]
  split
  · rfl
  · split <;> rfl

/-- A field that is kept is a constant or a property. -/
theorem ownKind?_field {h : Header} {info : Field}
    (hkept : (Decl.field h info).isExcluded marker = false) : (Decl.field h info).ownKind? marker =
      if isConstantField ((Decl.field h info).directive? marker) info then some .constant
      else some .property := by
  rw [Decl.ownKind?, ← Decl.kind_directive?_of_kept rfl hkept]
  cases (Decl.field h info).directive? marker <;> simp [isConstantField]

/-- What a member of its own makes is its record, and of the right kind. -/
theorem represents_of_candidate? {ctx : Context} {owner : Owner}
    {constants : OrderedMap String Int64} {source : MemberSource} {d : Decl} {r : ExportRecord}
    (hr : (⟨source, markMember ctx.options.marker d, .member⟩ : Place).candidate? ctx owner constants
      = some r) :
    (∃ types, ctx.Represents d r types) ∧ d.ownKind? ctx.options.marker = some r.kind := by
  unfold Place.candidate? Place.action at hr
  dsimp only at hr
  cases haction : memberAction owner source (markMember ctx.options.marker d) with
  | nothing | skip reason =>
    rw [haction] at hr
    cases hr
  | callable kind h c =>
    rw [haction] at hr
    obtain ⟨hmember, -, hdecl⟩ := callable_of_memberAction haction
    rw [directive_markMember hmember] at hr
    cases hr
    rcases hdecl with ⟨rfl, rfl⟩ | ⟨rfl, rfl⟩
    · exact ⟨⟨_, .constructor h c⟩, rfl⟩
    · exact ⟨⟨_, .method h c⟩, ownKind?_method h c⟩
  | field h info =>
    rw [haction] at hr
    obtain ⟨hmember, hkept, rfl⟩ := field_of_memberAction haction
    rw [directive_markMember hmember] at hr
    rw [ownKind?_field hkept]
    dsimp only at hr
    split at hr
    · next hconst =>
      cases hr
      rw [if_pos hconst]
      exact ⟨⟨_, .constantField h info _⟩, rfl⟩
    · next hconst =>
      cases hr
      rw [if_neg hconst]
      exact ⟨⟨_, .propertyField h info⟩, rfl⟩

/-- What each place makes, in order. -/
def contributions (ctx : Context) (owner : Owner) (constants : OrderedMap String Int64) :
    List Place → List (Option ExportRecord)
  | [] => []
  | p :: ps =>
    p.candidate? ctx owner constants :: contributions ctx owner (p.learn ctx owner constants) ps

section Contributions

variable (ctx : Context) (owner : Owner) (constants : OrderedMap String Int64) (ps : List Place)

theorem length_contributions : (contributions ctx owner constants ps).length = ps.length := by
  induction ps generalizing constants with
  | nil => rfl
  | cons p ps ih => exact congrArg (· + 1) (ih _)

/-- What the places contribute are the candidates. -/
theorem filterMap_contributions :
    (contributions ctx owner constants ps).filterMap id = candidates ctx owner constants ps := by
  induction ps generalizing constants with
  | nil => rfl
  | cons p ps ih =>
    unfold contributions candidates
    rw [List.filterMap_cons, ih]
    cases p.candidate? ctx owner constants <;> rfl

/-- Each place contributes what it offers under the constants that are known there. -/
theorem exists_getElem?_contributions {i : Nat} {p : Place} (hp : ps[i]? = some p) :
    ∃ known, (contributions ctx owner constants ps)[i]? = some (p.candidate? ctx owner known) := by
  induction ps generalizing constants i with
  | nil => cases hp
  | cons q ps ih =>
    cases i with
    | zero =>
      cases hp
      exact ⟨constants, rfl⟩
    | succ i => exact ih _ hp

end Contributions

/-- A member and its slot make a place. -/
theorem getElem?_places {owner : Owner} {source : MemberSource} {decls : List Decl} {i : Nat}
    {d : Decl} {slot : Slot} (hd : decls[i]? = some d)
    (hslot : (planProperties owner.qualifiedName (decls.map (markMember marker))).slots[i]? = some slot) :
    (places marker owner source decls)[i]? = some ⟨source, markMember marker d, slot⟩ := by
  have hm : (decls.map (markMember marker))[i]? = some (markMember marker d) := by
    rw [List.getElem?_map, hd]
    rfl
  unfold places
  rw [List.getElem?_map, List.getElem?_zip_eq_some (z := (_, slot)) |>.mpr ⟨hm, hslot⟩]
  rfl

theorem length_places (marker : String) (owner : Owner) (source : MemberSource) (decls : List Decl) :
    (places marker owner source decls).length = decls.length := by
  obtain ⟨_, hplan⟩ := explains_planProperties owner.qualifiedName (decls.map (markMember marker))
  unfold places
  rw [List.length_map, List.length_zip, hplan.length, Nat.min_self, List.length_map]

/-! ## The whole class -/

/-- An exported class with a usable name makes its own record, exports its members and is entered. -/
theorem visit_class {ctx : Context} {h : Header} {traits : RecordTraits} {a : Directive}
    (ha : (Decl.record h traits members).directive? ctx.options.marker = some a)
    (hname : Text.isBlankText h.name = false) (s : State) : visit ctx (.record h traits members) s =
      walk (ctx.enterClass h a) members (exportClassMembers ctx h traits members a
        ((s.visit ctx (.record h traits members)).emit (ctx.classRecord h traits members a))) := by
  have hdirective : (ctx.verdict (.record h traits members)).directive = some a :=
    (directive_verdict_eq ctx _).trans ha
  have hkept : ctx.verdict (.record h traits members) ≠ .ignored := by
    intro hignored
    rw [hignored] at hdirective
    cases hdirective
  have hvalid : (ctx.classRecord h traits members a).isValid = true := by
    rw [isValid_classRecord, hname]
    rfl
  rw [visit]
  dsimp only
  rw [if_neg hkept, hdirective]
  dsimp only
  rw [if_pos hvalid]

/-- The records that a class offers, member by member: a property stands at its place, and any other
member makes its record exactly if the rule admits it. -/
theorem own_members_auto_exported (ctx : Context) (h : Header) (traits : RecordTraits)
    (members : List Decl) (a : Directive) (s : State)
    (ha : (Decl.record h traits members).directive? ctx.options.marker = some a)
    (hname : Text.isBlankText h.name = false) :
    let marker := ctx.options.marker
    let inside := ctx.enterClass h a
    let owner := ctx.classOwner h traits members a
    let slots := (planProperties owner.qualifiedName (members.map (markMember marker))).slots
    let entered := (s.visit ctx (.record h traits members)).emit (ctx.classRecord h traits members a)
    let surface := classSurface ctx h traits members a entered
    let ancestry := ctx.index.ancestry [owner.qualifiedName] ctx.scopes.path traits.bases
    visit ctx (.record h traits members) s = walk inside members surface.state ∧
    surface.state.SameResult (surface.offered.toList.foldl (fun s r => s.emit r)
      (entered.bindBases inside h owner.qualifiedName (ancestry.filter (·.annotated)))) ∧
    slots.length = members.length ∧
    ∃ contributed : List (Option ExportRecord), contributed.length = members.length ∧
      (∃ known, surface.offered.toList = firstOfEachKey (contributed.filterMap id ++
        candidates inside owner known ((ancestry.filter (fun e => !e.annotated)).flatMap fun e =>
          places marker owner (.inherited e.qualifiedName) e.decl.children))) ∧
      ∀ (i : Nat) d, members[i]? = some d →
        (slots[i]? = some .absorbed → contributed[i]? = some none) ∧
        (∀ spec, slots[i]? = some (.property spec) →
          contributed[i]? = some (some (inside.propertyRecord spec))) ∧
        (slots[i]? = some .member →
          ((∃ r, contributed[i]? = some (some r)) ↔ d.IsOwnExport marker a traits members) ∧
          ∀ r, contributed[i]? = some (some r) →
            (∃ types, inside.Represents d r types) ∧ d.ownKind? marker = some r.kind) := by
  intro marker inside owner slots entered surface ancestry
  have hlength := length_places marker owner .own members
  obtain ⟨_, hplan⟩ := explains_planProperties owner.qualifiedName (members.map (markMember marker))
  obtain ⟨hoffered, hresult⟩ := offered_classSurface ctx h traits members a entered
  refine ⟨visit_class ha hname s, hoffered ▸ hresult, hplan.length.trans (List.length_map _),
    contributions inside owner entered.constants (places marker owner .own members),
    (length_contributions _ _ _ _).trans hlength, ?_, fun i d hd => ?_⟩
  · refine ⟨learnAll inside owner entered.constants (places marker owner .own members), ?_⟩
    rw [filterMap_contributions, ← candidates_append]
    exact hoffered
  · -- what stands in the slot decides what the place contributes
    have hcontributed : ∀ slot, slots[i]? = some slot → ∃ known,
        (contributions inside owner entered.constants (places marker owner .own members))[i]? =
          some ((⟨.own, markMember marker d, slot⟩ : Place).candidate? inside owner known) :=
      fun slot hslot => exists_getElem?_contributions _ _ _ _ (getElem?_places hd hslot)
    refine ⟨fun hslot => ?_, fun spec hslot => ?_, fun hslot => ?_⟩
    · obtain ⟨known, hget⟩ := hcontributed _ hslot
      exact hget
    · obtain ⟨known, hget⟩ := hcontributed _ hslot
      exact hget
    · obtain ⟨known, hget⟩ := hcontributed _ hslot
      rw [hget, ← isSome_candidate?_iff ctx h traits members a inside known,
        Option.isSome_iff_exists]
      refine ⟨exists_congr fun r => ⟨Option.some.inj, congrArg some⟩, fun r hr => ?_⟩
      exact represents_of_candidate? (Option.some.inj hr)

/-- A private method with two annotations, the later of which means nothing. -/
def annotatedTwice : Decl :=
  .method
    { name := "show"
      annotations := ["lua_export_function", "lua_export_bogus"]
      access := .priv } {}

/-- The method and a constant, between members that are left out. -/
def assortedMembers : List Decl :=
  [.method { name := "hide", access := .priv } {}, annotatedTwice,
    .field { name := "limit" } { type := .builtin "int", isStatic := true, isConst := true },
    .destructor { name := "~D" }]

/-- The annotated method and the constant make their records, and the others make none. -/
theorem own_members_auto_exported_assorted :
    let ctx : Context := { filePath := "d.h", options := {}, index := {} }
    let head : Header := { name := "D", annotations := ["lua_export_class"] }
    let a : Directive := { kind := .classType }
    let entered := (State.visit ctx (.record head {} assortedMembers) {}).emit
      (ctx.classRecord head {} assortedMembers a)
    (Decl.record head {} assortedMembers).directive? "lua_export_" = some a ∧
    Text.isBlankText head.name = false ∧
    ∃ contributed : List (Option ExportRecord),
      (classSurface ctx head {} assortedMembers a entered).offered.toList =
        firstOfEachKey (contributed.filterMap id) ∧
      contributed.length = 4 ∧
      (¬ ∃ r, contributed[0]? = some (some r)) ∧
      (∃ r, contributed[1]? = some (some r) ∧ r.kind = .method) ∧
      (∃ r, contributed[2]? = some (some r) ∧ r.kind = .constant) ∧
      ¬ ∃ r, contributed[3]? = some (some r) := by
  intro ctx head a entered
  have ha : (Decl.record head {} assortedMembers).directive? "lua_export_" = some a := by rfl
  have hname : Text.isBlankText head.name = false := by decide
  have hslots : ∀ owner, (planProperties owner (assortedMembers.map (markMember "lua_export_"))).slots =
      [.member, .member, .member, .member] := by
    intro owner
    unfold assortedMembers annotatedTwice
    rfl
  obtain ⟨-, -, -, contributed, hlength, ⟨known, hoffered⟩, hmembers⟩ :=
    own_members_auto_exported ctx head {} assortedMembers a {} ha hname
  rw [show (ctx.index.ancestry _ ctx.scopes.path ({} : RecordTraits).bases) = [] from
    TypeIndex.ancestry_nil _ _ _] at hoffered
  obtain ⟨hhidden, -⟩ := (hmembers 0 _ rfl).2.2 (congrArg (·[0]?) (hslots _))
  obtain ⟨hshown, hshownKind⟩ := (hmembers 1 _ rfl).2.2 (congrArg (·[1]?) (hslots _))
  obtain ⟨hlimit, hlimitKind⟩ := (hmembers 2 _ rfl).2.2 (congrArg (·[2]?) (hslots _))
  obtain ⟨hdestroyed, -⟩ := (hmembers 3 _ rfl).2.2 (congrArg (·[3]?) (hslots _))
  refine ⟨ha, hname, contributed, ?_, hlength, ?_, ?_, ?_, ?_⟩
  · rw [hoffered]
    exact congrArg firstOfEachKey (List.append_nil _)
  · rw [hhidden]
    rintro ⟨-, -, ⟨kind, hkind, -⟩ | ⟨hpublic, -⟩, -⟩
    · cases hkind
    · cases hpublic
  · have hannotated : annotatedTwice.IsAnnotated "lua_export_" := ⟨.function, by rfl, rfl⟩
    obtain ⟨r, hr⟩ := hshown.mpr
      ⟨fun _ => hannotated, fun _ _ _ _ => hannotated, .inl hannotated, .method rfl (.inl hannotated)⟩
    exact ⟨r, hr, (Option.some.inj (hshownKind r hr).2).symm⟩
  · obtain ⟨r, hr⟩ := hlimit.mpr
      ⟨fun hword => (List.not_mem_nil hword).elim, fun _ hword => (List.not_mem_nil hword).elim,
        .inr ⟨rfl, rfl⟩, .field (.inr (.inl (by decide)))⟩
    exact ⟨r, hr, (Option.some.inj (hlimitKind r hr).2).symm⟩
  · rw [hdestroyed]
    rintro ⟨-, -, -, hfits⟩
    cases hfits

/-- A word that means nothing does not exclude a member that an earlier word annotates. -/
theorem exported_despite_unknown_word :
    let ctx : Context := { filePath := "d.h", options := {}, index := {} }
    annotationWords "lua_export_" annotatedTwice.annotations = ["function", "bogus"] ∧
    DirectiveKind.ofName? "bogus" = none ∧
    (classSurface ctx { name := "D" } {} [annotatedTwice] { kind := .classType } {}).offered.toList.map
      (fun r => (r.kind, r.qualifiedName)) = [(.method, "D::show")] := by
  refine ⟨by rfl, by rfl, ?_⟩
  simp only [classSurface, TypeIndex.ancestry_nil]
  rfl

end Analysis

end ScriptExport
