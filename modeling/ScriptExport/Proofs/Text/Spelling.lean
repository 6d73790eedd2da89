import Mathlib.Data.List.Infix
import ScriptExport.Proofs.Text.Words
import ScriptExport.Text.Spelling

/-!
# Spellings and their characters

Normalizing a spelled name takes away blanks, qualifiers and `::` and adds nothing but single spaces
(`mem_spellingChars`). Each of its stages leaves alone exactly the texts that have nothing for it to take
away (`closeBeforeColons_eq_self_iff`), so a simple name stays as it is (`spelling_of_isSimpleName`).
-/

namespace ScriptExport.Text

/-! ## The characters that are kept -/

variable {cs : List Char}

theorem mem_of_mem_segments {p : Char → Bool} {s : List Char} {c : Char} (hs : s ∈ segments p cs)
    (hc : c ∈ s) : c ∈ cs := by
  induction cs generalizing s with
  | nil =>
    rw [segments_nil, List.mem_singleton] at hs
    exact hs ▸ hc
  | cons d cs ih =>
    rw [segments] at hs
    split at hs
    · rcases List.mem_cons.mp hs with rfl | hs
      · cases hc
      · exact List.mem_cons_of_mem d (ih hs hc)
    · split at hs
      · next hnil => exact absurd hnil (segments_ne_nil p cs)
      · next t ts hsegments =>
        rcases List.mem_cons.mp hs with rfl | hs
        · rcases List.mem_cons.mp hc with rfl | hc
          · exact List.mem_cons_self
          · exact List.mem_cons_of_mem d (ih (hsegments ▸ List.mem_cons_self) hc)
        · exact List.mem_cons_of_mem d (ih (hsegments ▸ List.mem_cons_of_mem t hs) hc)

theorem toList_join (sep : String) (ss : List String) :
    (join sep ss).toList = joinChars sep.toList (ss.map String.toList) := by
  fun_induction join sep ss with
  | case1 => rfl
  | case2 s => rfl
  | case3 s ss hss ih =>
    rw [List.map_cons, joinChars_cons (by simpa using hss), String.toList_append,
      String.toList_append, ih]

/-- A joined text has no other characters. -/
theorem mem_joinChars {sep : List Char} {ss : List (List Char)} {c : Char}
    (h : c ∈ joinChars sep ss) : c ∈ sep ∨ ∃ s ∈ ss, c ∈ s := by
  fun_induction joinChars sep ss with
  | case1 => cases h
  | case2 s => exact .inr ⟨s, List.mem_cons_self, h⟩
  | case3 s ss _ ih =>
    rcases List.mem_append.mp h with h | h
    · rcases List.mem_append.mp h with h | h
      · exact .inr ⟨s, List.mem_cons_self, h⟩
      · exact .inl h
    · rcases ih h with h | ⟨t, ht, hc⟩
      · exact .inl h
      · exact .inr ⟨t, List.mem_cons_of_mem s ht, hc⟩

theorem dropColons_suffix (cs : List Char) : dropColons cs <:+ cs := by
  fun_induction dropColons cs with
  | case1 cs ih => exact ih.trans (List.suffix_append [':', ':'] cs)
  | case2 cs => exact List.suffix_refl cs

theorem closeBeforeColons_sublist (cs : List Char) : (closeBeforeColons cs).Sublist cs := by
  fun_induction closeBeforeColons cs with
  | case1 cs ih => exact ((ih.cons_cons ':').cons_cons ':').cons ' '
  | case2 c cs _ ih => exact ih.cons_cons c
  | case3 => exact List.Sublist.refl []

theorem closeAfterColons_sublist (cs : List Char) : (closeAfterColons cs).Sublist cs := by
  fun_induction closeAfterColons cs with
  | case1 cs ih => exact ((ih.cons ' ').cons_cons ':').cons_cons ':'
  | case2 c cs _ ih => exact ih.cons_cons c
  | case3 => exact List.Sublist.refl []

theorem spellingChars_sublist (cs : List Char) : (spellingChars cs).Sublist (plainWords cs) :=
  ((closeAfterColons_sublist _).trans (closeBeforeColons_sublist _)).trans
    (dropColons_suffix _).sublist

/-- A spelling has no characters but those of the name and spaces. -/
theorem mem_spellingChars {c : Char} (h : c ∈ spellingChars cs) : c = ' ' ∨ c ∈ cs := by
  have hplain : c ∈ plainWords cs := (spellingChars_sublist cs).subset h
  rcases mem_joinChars hplain with hsep | ⟨w, hw, hc⟩
  · exact .inl (List.mem_singleton.mp hsep)
  · have hword : w ∈ segments isBlank cs := (List.mem_filter.mp (List.mem_filter.mp hw).1).1
    exact .inr (mem_of_mem_segments hword hc)

/-! ## Texts that stay as they are -/

theorem not_colons_prefix_dropColons (cs : List Char) : ¬ [':', ':'] <+: dropColons cs := by
  fun_induction dropColons cs with
  | case1 cs ih => exact ih
  | case2 cs hcs =>
    rintro ⟨rest, rfl⟩
    exact hcs rest rfl

theorem dropColons_eq_self_iff : dropColons cs = cs ↔ ¬ [':', ':'] <+: cs := by
  constructor
  · intro h
    rw [← h]
    exact not_colons_prefix_dropColons cs
  · intro h
    rw [dropColons]
    rintro rest rfl
    exact h (List.prefix_append [':', ':'] rest)

/-- A text without a blank before `::` stays as it is. -/
theorem closeBeforeColons_eq_self_iff : closeBeforeColons cs = cs ↔ ¬ [' ', ':', ':'] <:+: cs := by
  fun_induction closeBeforeColons cs with
  | case1 cs ih =>
    have hinside : [' ', ':', ':'] <:+: ' ' :: ':' :: ':' :: cs :=
      (List.prefix_append [' ', ':', ':'] cs).isInfix
    simp [hinside]
  | case2 c cs hc ih =>
    have hstart : ¬ [' ', ':', ':'] <+: c :: cs := by
      rintro ⟨rest, heq⟩
      obtain ⟨rfl, rfl⟩ := List.cons.inj heq
      exact hc rest rfl rfl
    rw [List.cons.injEq, List.infix_cons_iff, ih]
    simp [hstart]
  | case3 => simp

/-- A text without a blank after `::` stays as it is. -/
theorem closeAfterColons_eq_self_iff : closeAfterColons cs = cs ↔ ¬ [':', ':', ' '] <:+: cs := by
  fun_induction closeAfterColons cs with
  | case1 cs ih =>
    have hinside : [':', ':', ' '] <:+: ':' :: ':' :: ' ' :: cs :=
      (List.prefix_append [':', ':', ' '] cs).isInfix
    have hshorter : closeAfterColons cs ≠ ' ' :: cs := by
      intro heq
      have hlength := (closeAfterColons_sublist cs).length_le
      rw [heq, List.length_cons] at hlength
      omega
    simp [hinside, hshorter]
  | case2 c cs hc ih =>
    have hstart : ¬ [':', ':', ' '] <+: c :: cs := by
      rintro ⟨rest, heq⟩
      obtain ⟨rfl, rfl⟩ := List.cons.inj heq
      exact hc rest rfl rfl
    rw [List.cons.injEq, List.infix_cons_iff, ih]
    simp [hstart]
  | case3 => simp

/-! ## Simple names -/

/-- A name that is one plain word: it has characters, but no blank and no colon among them, and is no
qualifier. -/
structure IsSimpleName (name : String) : Prop where
  ne_nil : name.toList ≠ []
  blank : ∀ c ∈ name.toList, isBlank c = false
  colon : ':' ∉ name.toList
  qualifier : isQualifier name.toList = false

instance (name : String) : Decidable (IsSimpleName name) :=
  decidable_of_iff (name.toList ≠ [] ∧ name.toList.all (!isBlank ·) = true ∧ ':' ∉ name.toList ∧
      isQualifier name.toList = false)
    ⟨fun h => ⟨h.1, by simpa using h.2.1, h.2.2.1, h.2.2.2⟩,
      fun h => ⟨h.ne_nil, by simpa using h.blank, h.colon, h.qualifier⟩⟩

/-- A simple name is spelled as it stands. -/
theorem spelling_of_isSimpleName {name : String} (h : IsSimpleName name) : spelling name = name := by
  have hplain : plainWords name.toList = name.toList := by
    unfold plainWords
    rw [words_of_isWord ⟨h.ne_nil, h.blank⟩, List.filter_cons_of_pos (by simp [h.qualifier])]
    rfl
  unfold spelling spellingChars
  rw [hplain, dropColons_eq_self_iff.mpr fun hc => h.colon (hc.subset (by simp)),
    closeBeforeColons_eq_self_iff.mpr fun hc => h.colon (hc.subset (by simp)),
    closeAfterColons_eq_self_iff.mpr fun hc => h.colon (hc.subset (by simp)), String.ofList_toList]

end ScriptExport.Text
