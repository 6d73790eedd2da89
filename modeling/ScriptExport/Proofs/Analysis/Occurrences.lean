import ScriptExport.Proofs.Analysis.Inheritance

/-!
# Declarations in their scopes

A declaration occurs in a unit at a place: below the namespaces and records around it. `occurrences`
lists all declarations of a tree in pre-order with the scopes around them, members of records
included. The walk comes to the occurrences that are no members and below no closed scope, each of
them once, in a context that the scopes around it determine: `visits_eq_filterMap`. A scope is closed
if it is marked to be ignored without a valid directive, or if it is a class without a name.
-/

namespace ScriptExport

/-! ## Closed scopes -/

/-- Whether a scope is left out with everything in it: it is marked to be ignored without a valid
directive, or it is a class without a name. -/
def Decl.isClosed (marker : String) (d : Decl) : Bool :=
  let parsed := parseAnnotations marker d.annotations
  match d with
  | .nameSpace .. => parsed.ignored && parsed.directive.isNone
  | .record .. =>
    (parsed.ignored && parsed.directive.isNone)
      || (parsed.directive.any (·.kind.isClass) && Text.isBlankText d.name)
  | _ => false

variable {ctx : Context}

namespace Analysis

/-- Only a text that says so has a declaration ignored. -/
theorem verdict_eq_ignored_iff {d : Decl} : ctx.verdict d = .ignored ↔
      (parseAnnotations ctx.options.marker d.annotations).ignored = true ∧
        (parseAnnotations ctx.options.marker d.annotations).directive = none := by
  unfold Context.verdict
  dsimp only
  cases (parseAnnotations ctx.options.marker d.annotations).directive with
  | some a => simp only [reduceCtorEq, and_false, iff_false]; split <;> simp
  | none =>
    cases (parseAnnotations ctx.options.marker d.annotations).ignored with
    | true => simp
    | false => simp only [Bool.false_eq_true, ↓reduceIte, false_and, iff_false]; split <;> simp

/-- A name that is not blank has a qualified name that is not. -/
theorem isBlankText_qualifiedName {name : String} (h : Text.isBlankText name = false)
    (scopes : Scopes) : Text.isBlankText (scopes.qualifiedName name) = false := by
  have htrim : Text.isBlankText (Text.trim name) = false := (Text.isBlankText_trim name).trans h
  unfold Scopes.qualifiedName Text.trimmed?
  rw [h]
  cases scopes with
  | nil => exact htrim
  | cons s scopes =>
    show Text.isBlankText (s.qualifiedName ++ "::" ++ Text.trim name) = false
    rw [Text.isBlankText_append, htrim, Bool.and_false]

/-- A class with a name has a valid record. -/
theorem isValid_classRecord (ctx : Context) (h : Header) (traits : RecordTraits)
    (members : List Decl) (a : Directive) :
    (ctx.classRecord h traits members a).isValid = !Text.isBlankText h.name := by
  show (!Text.isBlankText h.name && !Text.isBlankText (ctx.scopes.qualifiedName h.name)) = _
  cases hname : Text.isBlankText h.name with
  | true => rfl
  | false => rw [isBlankText_qualifiedName hname]; rfl

/-- A visit that exports a class with a usable name offers its record and then its bindings and
members. -/
theorem Visit.run_class {v : Visit} {head : Header} {traits : RecordTraits} {members : List Decl}
    {a : Directive} (hdecl : v.decl = .record head traits members)
    (hdirective : v.verdict.directive = some a) (hhead : Text.isBlankText head.name = false)
    (s : State) :
    v.run s = exportClassMembers v.ctx head traits members a
      ((s.visit v.ctx v.decl).emit (v.ctx.classRecord head traits members a)) := by
  refine Visit.run_eq_exportClassMembers hdecl hdirective ?_ s
  rw [isValid_classRecord, hhead]
  rfl

theorem directive_verdict {d : Decl} {a : Directive}
    (hparsed : (parseAnnotations ctx.options.marker d.annotations).directive = some a)
    (happlies : a.kind.appliesTo d = true) : ctx.verdict d = .admitted (some a) := by
  unfold Context.verdict
  dsimp only
  rw [hparsed]
  simp [happlies]

theorem appliesTo_record_of_isClass {kind : DirectiveKind} (h : kind.isClass = true) (head : Header)
    (traits : RecordTraits) (members : List Decl) :
    kind.appliesTo (.record head traits members) = true := by
  cases kind <;> first | rfl | cases h

/-- The context of what is inside a scope. -/
def Context.inside (ctx : Context) (d : Decl) : Context :=
  match d with
  | .nameSpace h _ => ctx.enterNamespace h (ctx.verdict d).directive
  | _ =>
    match (ctx.verdict d).directive with
    | some a => ctx.enterClass d.header a
    | none => ctx.enterRecord d.header

theorem inside?_nameSpace (ctx : Context) (h : Header) (decls : List Decl) :
    (⟨ctx, .nameSpace h decls⟩ : Visit).inside? =
      if (Decl.nameSpace h decls).isClosed ctx.options.marker then none
      else some (ctx.inside (.nameSpace h decls)) := by
  unfold Visit.inside? Visit.verdict Decl.isClosed
  dsimp only
  simp only [verdict_eq_ignored_iff, Bool.and_eq_true, Option.isNone_iff_eq_none]
  rfl

/-- A record is entered unless it is closed. -/
theorem inside?_record (ctx : Context) (h : Header) (traits : RecordTraits) (members : List Decl) :
    (⟨ctx, .record h traits members⟩ : Visit).inside? =
      if (Decl.record h traits members).isClosed ctx.options.marker then none
      else some (ctx.inside (.record h traits members)) := by
  unfold Visit.inside? Visit.verdict Decl.isClosed Context.inside
  dsimp only
  simp only [verdict_eq_ignored_iff, isValid_classRecord]
  cases hdirective : (ctx.verdict (.record h traits members)).directive with
  | some a =>
    obtain ⟨hparsed, happlies⟩ := directive_of_verdict hdirective
    simp only [hparsed, reduceCtorEq, and_false, ↓reduceIte, Option.isNone_some, Bool.and_false,
      Option.any_some, isClass_of_appliesTo happlies, Bool.true_and, Bool.false_or]
    cases hblank : Text.isBlankText h.name with
    | true => simp [Decl.name, Decl.header, hblank]
    | false => simp [Decl.name, Decl.header, hblank]
  | none =>
    have hnone : (parseAnnotations ctx.options.marker
        (Decl.record h traits members).annotations).directive.any (·.kind.isClass) = false := by
      cases hparsed : (parseAnnotations ctx.options.marker
          (Decl.record h traits members).annotations).directive with
      | none => rfl
      | some a =>
        cases hclass : a.kind.isClass with
        | false => exact hclass
        | true =>
          have happlies := appliesTo_record_of_isClass hclass h traits members
          rw [directive_verdict hparsed happlies] at hdirective
          cases hdirective
    simp only [hnone, Decl.header, Bool.false_and, Bool.or_false, Bool.and_eq_true, Option.isNone_iff_eq_none]

/-- A declaration is visited first, and then what is inside it unless it is closed. -/
theorem visitsOf_eq_cons (ctx : Context) (d : Decl) :
    visitsOf ctx d = ⟨ctx, d⟩ ::
      if d.isClosed ctx.options.marker then [] else visits (ctx.inside d) d.children := by
  rw [visitsOf_eq]
  cases d with
  | nameSpace h decls =>
    rw [inside?_nameSpace]
    cases (Decl.nameSpace h decls).isClosed ctx.options.marker <;> rfl
  | record h traits members =>
    rw [inside?_record]
    cases (Decl.record h traits members).isClosed ctx.options.marker <;> rfl
  | _ =>
    -- nothing is inside it, and nothing is visited either way
    refine congrArg (List.cons _) (Eq.trans ?_ (ite_self []).symm)
    unfold Visit.inside?
    split <;> rfl

/-! ## Occurrences -/

/-- A declaration and the scopes around it, innermost first. -/
structure Occurrence where
  around : List Decl
  decl : Decl

mutual

/-- A declaration and everything inside it. -/
def occurrencesOf (around : List Decl) : Decl → List Occurrence
  | .nameSpace h decls =>
    ⟨around, .nameSpace h decls⟩ :: occurrences (.nameSpace h decls :: around) decls
  | .record h traits members =>
    ⟨around, .record h traits members⟩ :: occurrences (.record h traits members :: around) members
  | d => [⟨around, d⟩]

/-- Declarations and everything inside them, in pre-order. -/
def occurrences (around : List Decl) : List Decl → List Occurrence
  | [] => []
  | d :: ds => occurrencesOf around d ++ occurrences around ds

end

/-- A declaration occurs before what is inside it. -/
theorem occurrencesOf_eq (around : List Decl) (d : Decl) :
    occurrencesOf around d = ⟨around, d⟩ :: occurrences (d :: around) d.children := by
  cases d with
  | nameSpace h decls => rw [occurrencesOf]; rfl
  | record h traits members => rw [occurrencesOf]; rfl
  | _ => rfl

/-- What occurs in a scope has the scopes around it. -/
theorem suffix_of_mem_occurrences {p : Occurrence} (around ds : List Decl)
    (hp : p ∈ occurrences around ds) : around <:+ p.around := by
  induction ds using Decl.list_induction generalizing around with
  | nil => cases hp
  | cons d ds ihContents ih =>
    rw [occurrences, occurrencesOf_eq] at hp
    rcases List.mem_append.mp hp with hp | hp
    · rcases List.mem_cons.mp hp with rfl | hp
      · exact List.suffix_refl _
      · exact (List.suffix_cons _ _).trans (ihContents _ hp)
    · exact ih around hp

/-! ## Visits -/

/-- The context inside nested scopes, innermost first. -/
def Context.within (ctx : Context) (around : List Decl) : Context :=
  around.foldr (fun d ctx => ctx.inside d) ctx

theorem inside_eq_enter (ctx : Context) (d : Decl) :
    ∃ kind placement exported, ctx.inside d = ctx.enter d.name kind placement exported := by
  unfold Context.inside
  split
  · exact ⟨_, _, _, rfl⟩
  · split <;> exact ⟨_, _, _, rfl⟩

theorem options_within (ctx : Context) (around : List Decl) :
    (ctx.within around).options = ctx.options := by
  induction around with
  | nil => rfl
  | cons d around ih =>
    obtain ⟨kind, placement, exported, heq⟩ := inside_eq_enter (ctx.within around) d
    show ((ctx.within around).inside d).options = _
    rw [heq]
    exact ih

/-- The visit that the walk makes to an occurrence, if it comes to it. -/
def Occurrence.visit? (ctx : Context) (p : Occurrence) : Option Visit :=
  if p.decl.isMemberOnly || p.around.any (·.isClosed ctx.options.marker) then none
  else some ⟨ctx.within p.around, p.decl⟩

/-- The walk does not come to what is inside a closed scope. -/
theorem filterMap_visit?_of_closed {d : Decl} {around : List Decl}
    (hd : d.isClosed ctx.options.marker = true) (ds : List Decl) :
    (occurrences (d :: around) ds).filterMap (·.visit? ctx) = [] := by
  rw [List.filterMap_eq_nil_iff]
  intro p hp
  have hmem : d ∈ p.around := (suffix_of_mem_occurrences _ ds hp).subset List.mem_cons_self
  unfold Occurrence.visit?
  rw [if_pos]
  rw [Bool.or_eq_true]
  exact .inr (List.any_eq_true.mpr ⟨d, hmem, hd⟩)

section Open

variable {around : List Decl}

/-- What is below open scopes is visited. -/
theorem visit?_of_open (hopen : around.any (·.isClosed ctx.options.marker) = false) {d : Decl}
    (hd : d.isMemberOnly = false) :
    (⟨around, d⟩ : Occurrence).visit? ctx = some ⟨ctx.within around, d⟩ := by
  unfold Occurrence.visit?
  rw [hd, hopen]
  rfl

/-- The walk through the contents of open scopes comes to the occurrences there that are no members
and below no closed scope, in order. -/
theorem visits_eq_filterMap (around : List Decl)
    (hopen : around.any (·.isClosed ctx.options.marker) = false) (ds : List Decl) :
    visits (ctx.within around) ds = (occurrences around ds).filterMap (·.visit? ctx) := by
  induction ds using Decl.list_induction generalizing around with
  | nil => rfl
  | cons d ds ihContents ih =>
    rw [visits, occurrences, List.filterMap_append, ih around hopen]
    congr 1
    cases hd : d.isMemberOnly with
    | true =>
      -- a member has nothing inside it
      have hnone : (⟨around, d⟩ : Occurrence).visit? ctx = none := by
        unfold Occurrence.visit?
        rw [hd]
        rfl
      have hleaf : d.children = [] := by cases d <;> first | rfl | cases hd
      rw [occurrencesOf_eq, hleaf, List.filterMap_cons_none hnone]
      rfl
    | false =>
      rw [if_neg Bool.false_ne_true, visitsOf_eq_cons, occurrencesOf_eq,
        List.filterMap_cons_some (visit?_of_open hopen hd), options_within]
      refine congrArg (List.cons _) ?_
      cases hclosed : d.isClosed ctx.options.marker with
      | true => rw [if_pos rfl, filterMap_visit?_of_closed hclosed]
      | false =>
        rw [if_neg Bool.false_ne_true]
        exact ihContents (d :: around) (by rw [List.any_cons, hclosed, hopen]; rfl)

end Open

/-- A visit of a walk from the top is one to an occurrence. -/
theorem mem_visits_iff {ds : List Decl} {v : Visit} :
    v ∈ visits ctx ds ↔ ∃ p ∈ occurrences [] ds, p.visit? ctx = some v := by
  have hvisits : visits ctx ds = (occurrences [] ds).filterMap (·.visit? ctx) :=
    visits_eq_filterMap [] rfl ds
  rw [hvisits, List.mem_filterMap]

/-! ## Names -/

/-- The names of the scopes around the declaration, outermost first. -/
def Occurrence.path (p : Occurrence) : List String :=
  (p.around.map fun d => scopeName d.name).reverse

/-- The name of the declaration after those of the scopes around it. -/
def Occurrence.qualifiedName (p : Occurrence) : String :=
  qualify p.path (Text.trim p.decl.name)

/-- The scopes around an occurrence put its path before a name. -/
theorem within_around (htop : ctx.scopes = []) (p : Occurrence) (name : String) :
    (ctx.within p.around).scopes.within name = qualify p.path name := by
  obtain ⟨around, decl⟩ := p
  induction around generalizing name with
  | nil =>
    show ctx.scopes.within name = name
    rw [htop]
    rfl
  | cons d around ih =>
    obtain ⟨kind, placement, exported, heq⟩ := inside_eq_enter (ctx.within around) d
    have hpath : (⟨d :: around, decl⟩ : Occurrence).path =
        (⟨around, decl⟩ : Occurrence).path ++ [scopeName d.name] := by
      simp [Occurrence.path]
    show ((ctx.within around).inside d).scopes.within name = _
    rw [heq, hpath, qualify_concat, ← ih]
    rfl

theorem qualifiedName_around (htop : ctx.scopes = []) {p : Occurrence}
    (hname : Text.isBlankText p.decl.name = false) :
    (ctx.within p.around).scopes.qualifiedName p.decl.name = p.qualifiedName := by
  unfold Scopes.qualifiedName Text.trimmed?
  rw [hname]
  exact within_around htop p _

end Analysis

end ScriptExport
