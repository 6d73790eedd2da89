import Mathlib.Data.List.Induction
import ScriptExport.Directive.Parse
import ScriptExport.Proofs.Directive.Attributes
import ScriptExport.Proofs.Lists

/-!
# What a list of annotations means

Of the annotation texts of a declaration those count that start with the marker. `hasMarker`, `kindWord`
and `attributePayload` say on the text alone what such a text states. A text can do one of four things:
nothing, if it has no marker; exclude the declaration; name a kind that is not known; or state a directive.
`AnnotationMeaning` gives each part of the result as a function of what all texts state, in their
order. It is kept by each further text (`AnnotationMeaning.take`) and so holds of the whole list.
-/

namespace ScriptExport

/-! ## What one text states -/

/-- Whether the text, trimmed, starts with the marker. -/
def hasMarker (marker text : String) : Bool :=
  marker.toList.isPrefixOf (Text.trimChars text.toList)

/-- What follows the marker in the trimmed text. -/
def afterMarker (marker text : String) : List Char :=
  (Text.trimChars text.toList).drop marker.toList.length

/-- The word for the kind: what stands before the first comma, trimmed. -/
def kindWord (marker text : String) : String :=
  String.ofList (Text.trimChars ((afterMarker marker text).takeWhile (· ≠ ',')))

/-- What stands behind the first comma. -/
def attributePayload (marker text : String) : List Char :=
  ((afterMarker marker text).dropWhile (· ≠ ',')).tail

/-- The directive that a text states: its kind, if that is known, and its payload. -/
def statedDirective? (marker text : String) : Option (DirectiveKind × List Char) :=
  if hasMarker marker text then
    (DirectiveKind.ofName? (kindWord marker text)).map (·, attributePayload marker text)
  else none

/-- The word of a text with the marker that is neither a kind nor the one that excludes. -/
def unknownWord? (marker text : String) : Option String :=
  if hasMarker marker text && kindWord marker text != ignoreWord &&
      (DirectiveKind.ofName? (kindWord marker text)).isNone then
    some (kindWord marker text)
  else none

/-- Whether the text has the marker and the word that excludes a declaration. -/
def excludes (marker text : String) : Bool :=
  hasMarker marker text && kindWord marker text == ignoreWord

variable (marker : String)

/-- Marked annotations have a kind and a payload. -/
theorem annotationParts?_eq (text : String) : annotationParts? marker text =
    if hasMarker marker text then some (kindWord marker text, attributePayload marker text)
    else none := by
  unfold annotationParts? hasMarker kindWord attributePayload afterMarker
  rw [Text.after?_eq]
  split
  · rw [Option.map_some]
    split
    · next hcut =>
      obtain ⟨hbefore, hafter⟩ := Text.takeWhile_eq_of_cutAt hcut
      rw [hbefore, hafter]
    · next hcut =>
      obtain ⟨hbefore, hafter⟩ := Text.takeWhile_eq_self_of_cutAt hcut
      rw [hbefore, hafter]
  · rfl

/-- The issues that a text raises behind a directive of the kind `earlier`. -/
def issuesOf (marker text : String) (earlier : Option DirectiveKind) : List DirectiveIssue :=
  (unknownWord? marker text).toList.map .unknownKind ++
    (statedDirective? marker text).toList.flatMap fun d =>
      (Attribute.parse d.2 ({}, [])).2 ++ earlier.toList.map fun kind => .additional d.1 kind

/-- One text may exclude the declaration, name an unknown kind or state a directive, which counts if there
is none yet. -/
theorem ParsedAnnotations.take_eq (text : String) (p : ParsedAnnotations) : p.take marker text =
      { directive := p.directive.or ((statedDirective? marker text).map
          fun d => ⟨d.1, (Attribute.parse d.2 ({}, [])).1⟩)
        ignored := p.ignored || excludes marker text
        issues := p.issues ++ issuesOf marker text (p.directive.map (·.kind)) } := by
  have hignore : DirectiveKind.ofName? ignoreWord = none := rfl
  unfold take excludes issuesOf unknownWord? statedDirective?
  rw [annotationParts?_eq]
  by_cases hmarker : hasMarker marker text = true
  · by_cases hword : kindWord marker text = ignoreWord
    · simp [hmarker, hword, hignore]
    · cases hkind : DirectiveKind.ofName? (kindWord marker text) with
      | none => simp [hmarker, hword, hkind]
      | some kind =>
        simp only [hmarker, hword, hkind, ↓reduceIte, beq_iff_eq, Option.map_some]
        -- the payload is read behind the issues so far, which it only appends to
        rw [Attribute.parse_eq]
        cases p.directive <;> simp [hword]
  · simp [hmarker]

/-! ## Kinds of issues -/

/-- Whether the issue is about a further directive. -/
def DirectiveIssue.isAdditional : DirectiveIssue → Bool
  | additional .. => true
  | _ => false

/-- A choice between the three kinds of issues chooses among the parts of what a text raises. -/
theorem filter_issuesOf {f : DirectiveIssue → Bool} {ofKind ofAttribute ofFurther : Bool}
    (hunknown : ∀ word, f (.unknownKind word) = ofKind)
    (hattribute : ∀ issue : DirectiveIssue, issue.isAboutAttribute = true → f issue = ofAttribute)
    (hadditional : ∀ kind earlier, f (.additional kind earlier) = ofFurther)
    (marker text : String) (earlier : Option DirectiveKind) :
    (issuesOf marker text earlier).filter f =
      (if ofKind then (unknownWord? marker text).toList.map .unknownKind else []) ++
        (statedDirective? marker text).toList.flatMap fun d =>
          (if ofAttribute then (Attribute.parse d.2 ({}, [])).2 else []) ++
            if ofFurther then earlier.toList.map fun kind => .additional d.1 kind else [] := by
  unfold issuesOf
  rw [List.filter_append, filter_eq_ite (by simpa using fun word _ => hunknown word)]
  congr 1
  cases statedDirective? marker text with
  | none => rfl
  | some d =>
    have hparse := filter_eq_ite (f := f) (b := ofAttribute) (l := (Attribute.parse d.2 ({}, [])).2)
      fun issue hissue => hattribute issue (Attribute.isAboutAttribute_of_mem_parse hissue)
    have hfurther := filter_eq_ite (f := f) (b := ofFurther)
      (l := earlier.toList.map fun kind => .additional d.1 kind)
      (by simpa using fun kind _ => hadditional d.1 kind)
    simp only [Option.toList_some, List.flatMap_singleton, List.filter_append, hparse, hfurther]

/-! ## What all texts do -/

/-- The issues about the directives after the first one. -/
def additionalIssues : List (DirectiveKind × List Char) → List DirectiveIssue
  | [] => []
  | first :: further => further.map fun d => .additional d.1 first.1

/-- What the result says of the texts. -/
structure AnnotationMeaning (marker : String) (texts : List String) (p : ParsedAnnotations) : Prop where
  /-- The first stated directive counts, with the attributes of its own payload. -/
  directive_eq : p.directive =
    (texts.filterMap (statedDirective? marker)).head?.map
      fun d => ⟨d.1, (Attribute.parse d.2 ({}, [])).1⟩
  ignored_iff : p.ignored = true ↔
    ∃ text ∈ texts, hasMarker marker text = true ∧ kindWord marker text = ignoreWord
  /-- One issue for each text with an unknown kind. -/
  unknown_eq : p.issues.filter (·.kind = .unknownDirective) =
    (texts.filterMap (unknownWord? marker)).map .unknownKind
  /-- One issue for each stated directive but the first. -/
  additional_eq : p.issues.filter (·.isAdditional) =
    additionalIssues (texts.filterMap (statedDirective? marker))
  /-- All others are about the attributes of stated directives, whether these count or not. -/
  attributes_eq : p.issues.filter (·.isAboutAttribute) =
    (texts.filterMap (statedDirective? marker)).flatMap fun d => (Attribute.parse d.2 ({}, [])).2

theorem additionalIssues_concat (ds : List (DirectiveKind × List Char))
    (d : DirectiveKind × List Char) : additionalIssues (ds ++ [d]) =
      additionalIssues ds ++ ds.head?.toList.map fun first => .additional d.1 first.1 := by
  cases ds <;> simp [additionalIssues]

namespace AnnotationMeaning

variable {marker text : String} {texts : List String} {p : ParsedAnnotations}

theorem nil (marker : String) : AnnotationMeaning marker [] {} where
  directive_eq := rfl
  ignored_iff := by simp
  unknown_eq := rfl
  additional_eq := rfl
  attributes_eq := rfl

/-- One more text. -/
theorem take (h : AnnotationMeaning marker texts p) (text : String) :
    AnnotationMeaning marker (texts ++ [text]) (p.take marker text) := by
  have hfirst : ((texts ++ [text]).filterMap (statedDirective? marker)).head? =
      (texts.filterMap (statedDirective? marker)).head?.or (statedDirective? marker text) := by
    rw [List.filterMap_append, List.head?_append]
    cases hstated : statedDirective? marker text <;> simp [hstated]
  have hkind : ∀ issue : DirectiveIssue, issue.isAboutAttribute = true →
      decide (issue.kind = .unknownDirective) = false := fun issue habout => by
    rw [DirectiveIssue.kind_of_isAboutAttribute habout]
    rfl
  have hnot : ∀ issue : DirectiveIssue, issue.isAboutAttribute = true →
      issue.isAdditional = false := fun issue habout => by
    cases issue with
    | additional kind earlier => cases habout
    | _ => rfl
  rw [ParsedAnnotations.take_eq]
  constructor
  · rw [hfirst, Option.map_or, ← h.directive_eq]
  · dsimp only
    rw [Bool.or_eq_true, h.ignored_iff]
    simp [excludes, or_and_right, exists_or]
  · dsimp only
    rw [List.filter_append, h.unknown_eq, filter_issuesOf (fun _ => rfl) hkind (fun _ _ => rfl),
      List.filterMap_append, List.map_append]
    congr 1
    cases hunknown : unknownWord? marker text <;> simp [hunknown]
  · dsimp only
    rw [List.filter_append, h.additional_eq, filter_issuesOf (fun _ => rfl) hnot (fun _ _ => rfl),
      h.directive_eq, List.filterMap_append]
    cases hstated : statedDirective? marker text with
    | none => simp [hstated]
    | some d =>
      rw [List.filterMap_cons_some hstated, List.filterMap_nil, additionalIssues_concat]
      congr 1
      -- the directive that counts so far is the first one stated
      cases (texts.filterMap (statedDirective? marker)).head? <;> rfl
  · dsimp only
    rw [List.filter_append, h.attributes_eq,
      filter_issuesOf (fun _ => rfl) (fun _ => id) (fun _ _ => rfl), List.filterMap_append,
      List.flatMap_append]
    congr 1
    cases hstated : statedDirective? marker text <;> simp [hstated]

end AnnotationMeaning

/-- Parsing gives annotations their meaning. -/
theorem meaning_parseAnnotations (texts : List String) :
    AnnotationMeaning marker texts (parseAnnotations marker texts) := by
  induction texts using List.reverseRecOn with
  | nil => exact .nil marker
  | append_singleton texts text ih =>
    unfold parseAnnotations at ih ⊢
    rw [List.foldl_append]
    exact ih.take text

/-! ## Texts without the marker -/

theorem ParsedAnnotations.take_of_unmarked {marker text : String} (h : hasMarker marker text = false)
    (p : ParsedAnnotations) : p.take marker text = p := by
  unfold take
  rw [annotationParts?_eq, h]
  rfl

/-- Texts of other origin make no difference. -/
theorem parseAnnotations_filter (texts : List String) :
    parseAnnotations marker (texts.filter (hasMarker marker)) = parseAnnotations marker texts := by
  unfold parseAnnotations
  rw [List.foldl_filter]
  congr 1
  funext p text
  split
  · rfl
  · next h => exact (p.take_of_unmarked (by simpa using h)).symm

theorem ParsedAnnotations.isMarked_take (text : String) (p : ParsedAnnotations) :
    (p.take marker text).isMarked = (p.isMarked || hasMarker marker text) := by
  unfold take isMarked
  rw [annotationParts?_eq]
  cases hasMarker marker text with
  | false => simp
  | true =>
    rw [if_pos rfl]
    dsimp only
    split
    · simp
    · split
      · simp
      · cases p.directive <;> simp

theorem isMarked_parseAnnotations (texts : List String) :
    (parseAnnotations marker texts).isMarked = texts.any (hasMarker marker) := by
  have hfold : ∀ p : ParsedAnnotations, (texts.foldl (·.take marker) p).isMarked =
      (p.isMarked || texts.any (hasMarker marker)) := by
    induction texts with
    | nil => exact fun p => (Bool.or_false _).symm
    | cons text texts ih =>
      intro p
      rw [List.foldl_cons, ih, ParsedAnnotations.isMarked_take, Bool.or_assoc, List.any_cons]
  exact (hfold {}).trans (Bool.false_or _)

/-- What a list of annotations means. The first text with the marker and a known kind gives the directive,
with its kind and its own attributes. The declaration is ignored exactly if a text with the marker has the
word for it. There is one issue about the kind for each text with the marker and an unknown kind, one for
each further text with a known kind, and otherwise there are those about the attributes of all texts with a
known kind. The list counts as marked exactly if a text has the marker, and texts without it can be left
out. -/
theorem annotations_meaning (marker : String) (texts : List String) :
    AnnotationMeaning marker texts (parseAnnotations marker texts) ∧
      ((parseAnnotations marker texts).isMarked = true ↔
        ∃ text ∈ texts, hasMarker marker text = true) ∧
      parseAnnotations marker (texts.filter (hasMarker marker)) = parseAnnotations marker texts := by
  refine ⟨meaning_parseAnnotations marker texts, ?_, parseAnnotations_filter marker texts⟩
  rw [isMarked_parseAnnotations, List.any_eq_true]

end ScriptExport
