import ScriptExport.Proofs.Analysis.UnresolvedTypes
import ScriptExport.Proofs.Text.Brackets
import ScriptExport.Proofs.Text.Spelling

/-!
# What a member key tells

The key of a member is one text: its name, the canonical texts of its parameter types with commas
between them, and whether it is `const`. The types have commas and brackets of their own, but a
type whose names have none is one part of a list (`isPart_canonical`), however deep it is. So the key
tells the name, the types and the constness of a member with such types (`eq_of_memberKey_eq`).
-/

namespace ScriptExport

namespace TypeRef

mutual

/-- Whether no name inside the type has a bracket or a comma. What is unresolved has no name. -/
def hasPlainNames : TypeRef → Bool
  | builtin name | named name => Text.isUnmarked name
  | const t | lvalueRef t | rvalueRef t | pointer t => t.hasPlainNames
  | template name args => Text.isUnmarked name && havePlainNames args
  | function ret params => ret.hasPlainNames && havePlainNames params
  | unresolved _ => true

/-- Whether no name inside the types has a bracket or a comma. -/
def havePlainNames : List TypeRef → Bool
  | [] => true
  | t :: ts => t.hasPlainNames && havePlainNames ts

end

theorem havePlainNames_eq_all (ts : List TypeRef) : havePlainNames ts = ts.all hasPlainNames := by
  induction ts with
  | nil => rfl
  | cons t ts ih => rw [havePlainNames, ih, List.all_cons]

variable {t : TypeRef}

theorem hasPlainNames_of_mem_parts (h : t.hasPlainNames = true) :
    ∀ part ∈ t.parts, part.hasPlainNames = true := by
  cases t with
  | builtin name | named name | unresolved spelling => exact List.forall_mem_nil _
  | const t | lvalueRef t | rvalueRef t | pointer t =>
    rw [hasPlainNames] at h
    exact List.forall_mem_singleton.mpr h
  | template name args =>
    rw [hasPlainNames, havePlainNames_eq_all, Bool.and_eq_true, List.all_eq_true] at h
    exact h.2
  | function ret params =>
    rw [hasPlainNames, havePlainNames_eq_all, Bool.and_eq_true, List.all_eq_true] at h
    exact List.forall_mem_cons.mpr h

/-- A name without marks is a part of a key. -/
theorem isPart_nameText {name : String} (h : Text.isUnmarked name = true) :
    Text.IsPart (nameText name).text.toList := by
  unfold nameText
  dsimp only
  split
  · exact Text.isPart_identifier name
  · next hne =>
    refine Text.isPart_of_unmarked (by simpa using hne) fun c hc => ?_
    unfold Text.spelling at hc
    rw [String.toList_ofList] at hc
    rcases Text.mem_spellingChars hc with rfl | hc
    · rfl
    · exact Text.isUnmarked_iff.mp h c hc

/-- The texts of types in brackets behind a text make one part with it. -/
theorem isPart_applied {head left right : String} (hhead : Text.IsPart head.toList)
    {ts : List TypeRef} (hts : ∀ t ∈ ts, Text.IsPart t.canonical.text.toList)
    (hleft : left = "(" ∨ left = "<") (hright : right = ")" ∨ right = ">") :
    Text.IsPart (head ++ left ++ Text.join ", " ((canonicalList ts).map (·.text)) ++ right).toList := by
  have hbalanced : Text.IsBalanced
      (Text.join ", " ((canonicalList ts).map (·.text))).toList := by
    rw [Text.toList_join, canonicalList_eq_map, List.map_map, List.map_map]
    refine Text.isBalanced_joinChars rfl fun s hs => ?_
    obtain ⟨t, ht, rfl⟩ := List.mem_map.mp hs
    exact (hts t ht).isBalanced
  obtain ⟨l, hl, hopens⟩ : ∃ l, left.toList = [l] ∧ (l = '(' ∨ l = '<') := by
    rcases hleft with rfl | rfl <;> simp
  obtain ⟨r, hr, hcloses⟩ : ∃ r, right.toList = [r] ∧ (r = ')' ∨ r = '>') := by
    rcases hright with rfl | rfl <;> simp
  have hpart := hhead.append (Text.isPart_brackets hopens hcloses hbalanced)
  rw [String.toList_append, String.toList_append, String.toList_append, hl, hr]
  simpa using hpart

/-- The canonical text of a type with plain names is one part of a list. -/
theorem isPart_canonical (h : t.hasPlainNames = true) : Text.IsPart t.canonical.text.toList := by
  induction t using parts_induction with
  | step t ih =>
    have hparts : ∀ part ∈ t.parts, Text.IsPart part.canonical.text.toList :=
      fun part hpart => ih part hpart (hasPlainNames_of_mem_parts h part hpart)
    cases t with
    | builtin name | named name =>
      rw [canonical]
      exact isPart_nameText h
    | const t | lvalueRef t | rvalueRef t =>
      rw [canonical]
      exact hparts t List.mem_cons_self
    | pointer t =>
      have hstar : Text.IsPart "*".toList := ⟨by decide, rfl⟩
      rw [canonical]
      dsimp only
      rw [String.toList_append]
      exact (hparts t List.mem_cons_self).append hstar
    | template name args =>
      rw [hasPlainNames, Bool.and_eq_true] at h
      rw [canonical]
      exact isPart_applied (isPart_nameText h.1) hparts (.inr rfl) (.inr rfl)
    | function ret params =>
      rw [canonical]
      obtain ⟨hret, hparams⟩ := List.forall_mem_cons.mp hparts
      exact isPart_applied hret hparams (.inl rfl) (.inl rfl)
    | unresolved spelling =>
      rw [canonical]
      exact Text.isPart_identifier spelling

end TypeRef

namespace ExportRecord

/-- The ending of a member key. -/
def constTail (isConst : Bool) : List Char :=
  if isConst then " const".toList else []

theorem toList_memberKey (r : ExportRecord) :
    r.memberKey.toList = r.name.toList
      ++ '(' :: Text.joinChars [','] (r.parameterTypes.map String.toList)
      ++ ')' :: constTail r.isConst := by
  unfold memberKey constTail
  cases r.isConst <;> simp [Text.toList_join]

theorem eq_of_append_constTail_eq {s t : List Char} {isConst isConst' : Bool}
    (h : s ++ ')' :: constTail isConst = t ++ ')' :: constTail isConst') :
    s = t ∧ isConst = isConst' := by
  cases isConst <;> cases isConst'
  · exact ⟨List.append_cancel_right h, rfl⟩
  · have hlast := congrArg List.getLast? h
    simp [constTail] at hlast
  · have hlast := congrArg List.getLast? h
    simp [constTail] at hlast
  · exact ⟨List.append_cancel_right h, rfl⟩

/-- The key of a member whose types are parts tells its name, its types and its constness. -/
theorem eq_of_memberKey_eq {r r' : ExportRecord}
    (h : ∀ t ∈ r.parameterTypes, Text.IsPart t.toList)
    (h' : ∀ t ∈ r'.parameterTypes, Text.IsPart t.toList) (hkey : r.memberKey = r'.memberKey) :
    r.name = r'.name ∧ r.parameterTypes = r'.parameterTypes ∧ r.isConst = r'.isConst := by
  have hparts : ∀ {types : List String}, (∀ t ∈ types, Text.IsPart t.toList) →
      ∀ s ∈ types.map String.toList, Text.IsPart s :=
    fun h => List.forall_mem_map.mpr h
  have hbalanced : ∀ {types : List String}, (∀ t ∈ types, Text.IsPart t.toList) →
      Text.IsBalanced (Text.joinChars [','] (types.map String.toList)) :=
    fun h => Text.isBalanced_joinChars rfl fun s hs => (hparts h s hs).isBalanced
  have htext := congrArg String.toList hkey
  rw [toList_memberKey, toList_memberKey] at htext
  obtain ⟨hsignature, hconst⟩ := eq_of_append_constTail_eq htext
  obtain ⟨hname, hjoined⟩ := Text.eq_of_append_paren_eq (hbalanced h) (hbalanced h') hsignature
  have htypes := Text.eq_of_joinChars_eq (hparts h) (hparts h') hjoined
  have hinjective : Function.Injective (List.map String.toList) :=
    List.map_injective_iff.mpr fun _ _ => String.toList_injective
  exact ⟨String.toList_injective hname, hinjective htypes, hconst⟩

end ExportRecord

end ScriptExport
