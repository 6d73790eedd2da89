import Mathlib.Data.List.Chain
import ScriptExport.Text.Segment

/-!
# Words and the blanks between them

A text is taken apart from its first blank on (`blank_induction`). Its words have characters and no
blanks (`isWord_of_mem_words`), and words that are joined with spaces are found again
(`words_joinChars`). The other way round, joining the words of a text gives the text back if its blanks
are single spaces between other characters (`joinChars_words`).
-/

namespace ScriptExport.Text

/-- A text that has characters, but no blanks. -/
structure IsWord (w : List Char) : Prop where
  ne_nil : w ≠ []
  blank : ∀ c ∈ w, isBlank c = false

theorem IsWord.space_not_mem {w : List Char} (h : IsWord w) : ' ' ∉ w :=
  fun hspace => Bool.noConfusion (h.blank ' ' hspace)

theorem IsWord.append {u v : List Char} (hu : IsWord u) (hv : IsWord v) : IsWord (u ++ v) := by
  refine ⟨List.append_ne_nil_of_left_ne_nil hu.ne_nil v, fun c hc => ?_⟩
  rcases List.mem_append.mp hc with hc | hc
  · exact hu.blank c hc
  · exact hv.blank c hc

/-! ## The words of a text -/

theorem of_mem_segments {p : Char → Bool} {cs s : List Char} (hs : s ∈ segments p cs) :
    ∀ c ∈ s, p c = false := by
  induction cs generalizing s with
  | nil =>
    rw [segments_nil, List.mem_singleton] at hs
    exact hs ▸ List.forall_mem_nil _
  | cons d cs ih =>
    rw [segments] at hs
    split at hs
    · rcases List.mem_cons.mp hs with rfl | hs
      · exact List.forall_mem_nil _
      · exact ih hs
    · next hd =>
      split at hs
      · next hnil => exact absurd hnil (segments_ne_nil p cs)
      · next t ts hsegments =>
        rw [hsegments] at ih
        rcases List.mem_cons.mp hs with rfl | hs
        · exact List.forall_mem_cons.mpr ⟨by simpa using hd, ih List.mem_cons_self⟩
        · exact ih (List.mem_cons_of_mem t hs)

theorem isWord_of_mem_words {cs w : List Char} (hw : w ∈ words cs) : IsWord w := by
  obtain ⟨hsegment, hne⟩ := List.mem_filter.mp hw
  exact ⟨by simpa using hne, of_mem_segments hsegment⟩

theorem words_of_isWord {w : List Char} (h : IsWord w) : words w = [w] := by
  unfold words
  rw [segments_of_none h.blank]
  exact List.filter_cons_of_pos (by simpa using h.ne_nil)

theorem words_append_blank {w : List Char} (hw : ∀ c ∈ w, isBlank c = false) {b : Char}
    (hb : isBlank b = true) (rest : List Char) :
    words (w ++ b :: rest) = words w ++ words rest := by
  unfold words
  rw [segments_append_cons hw hb, segments_of_none hw, ← List.filter_append]
  rfl

theorem words_append_cons {w : List Char} (h : IsWord w) {b : Char} (hb : isBlank b = true)
    (rest : List Char) : words (w ++ b :: rest) = w :: words rest := by
  rw [words_append_blank h.blank hb, words_of_isWord h]
  rfl

/-- Joined words are found again. -/
theorem words_joinChars {ws : List (List Char)} (hws : ∀ w ∈ ws, IsWord w) :
    words (joinChars [' '] ws) = ws := by
  induction ws with
  | nil => rfl
  | cons w ws ih =>
    obtain ⟨hw, hws⟩ := List.forall_mem_cons.mp hws
    cases ws with
    | nil => exact words_of_isWord hw
    | cons v ws =>
      rw [joinChars_cons (List.cons_ne_nil v ws), List.append_assoc, List.singleton_append,
        words_append_cons hw rfl, ih hws]

/-- A text has no blank, or it has a first one. -/
theorem blank_cases (cs : List Char) : (∀ c ∈ cs, isBlank c = false) ∨
    ∃ w b rest, cs = w ++ b :: rest ∧ (∀ c ∈ w, isBlank c = false) ∧ isBlank b = true := by
  induction cs with
  | nil => exact .inl (List.forall_mem_nil _)
  | cons c cs ih =>
    cases hc : isBlank c with
    | true => exact .inr ⟨[], c, cs, rfl, List.forall_mem_nil _, hc⟩
    | false =>
      rcases ih with hnone | ⟨w, b, rest, rfl, hw, hb⟩
      · exact .inl (List.forall_mem_cons.mpr ⟨hc, hnone⟩)
      · exact .inr ⟨c :: w, b, rest, rfl, List.forall_mem_cons.mpr ⟨hc, hw⟩, hb⟩

/-- Induction over what stands between the blanks of a text. -/
@[elab_as_elim]
theorem blank_induction {motive : List Char → Prop}
    (word : ∀ w, (∀ c ∈ w, isBlank c = false) → motive w)
    (step : ∀ w b rest, (∀ c ∈ w, isBlank c = false) → isBlank b = true → motive rest →
      motive (w ++ b :: rest)) (cs : List Char) : motive cs := by
  induction hlength : cs.length using Nat.strongRecOn generalizing cs with
  | ind n ih =>
    rcases blank_cases cs with hnone | ⟨w, b, rest, rfl, hw, hb⟩
    · exact word cs hnone
    · refine step w b rest hw hb (ih rest.length ?_ rest rfl)
      rw [← hlength, List.length_append, List.length_cons]
      omega

theorem length_joinChars_append_le (ws vs : List (List Char)) :
    (joinChars [' '] (ws ++ vs)).length ≤
      (joinChars [' '] ws).length + 1 + (joinChars [' '] vs).length := by
  by_cases hws : ws = []
  · rw [hws, List.nil_append]
    exact Nat.le_add_left _ _
  · by_cases hvs : vs = []
    · rw [hvs, List.append_nil, Nat.add_assoc]
      exact Nat.le_add_right _ _
    · rw [joinChars_append hws hvs, List.length_append, List.length_append]
      exact Nat.le_refl _

/-- Words of a text that are joined with spaces take up no more room than the text. -/
theorem length_joinChars_filter_words_le (p : List Char → Bool) (cs : List Char) :
    (joinChars [' '] ((words cs).filter p)).length ≤ cs.length := by
  have hword : ∀ w : List Char, (∀ c ∈ w, isBlank c = false) →
      (joinChars [' '] ((words w).filter p)).length ≤ w.length := by
    intro w hw
    by_cases hne : w = []
    · rw [hne]
      exact Nat.zero_le _
    · rw [words_of_isWord ⟨hne, hw⟩, List.filter_singleton]
      cases p w
      · exact Nat.zero_le _
      · exact Nat.le_refl _
  induction cs using blank_induction with
  | word w hw => exact hword w hw
  | step w b rest hw hb ih =>
    have hfirst := hword w hw
    have happend := length_joinChars_append_le ((words w).filter p) ((words rest).filter p)
    rw [words_append_blank hw hb, List.filter_append, List.length_append, List.length_cons]
    omega

/-! ## Single spaces -/

/-- A text whose blanks are single spaces, none of them at its end. -/
structure IsSpaced (cs : List Char) : Prop where
  noBlankAtEnd : ∀ c ∈ cs.getLast?, isBlank c = false
  noAdjacentBlanks : cs.IsChain fun c d => isBlank c = false ∨ isBlank d = false
  spaces : ∀ c ∈ cs, isBlank c = true → c = ' '

namespace IsSpaced

variable {w cs : List Char}

theorem of_blank (h : ∀ c ∈ w, isBlank c = false) : IsSpaced w where
  noBlankAtEnd c hc := h c (List.mem_of_mem_getLast? hc)
  noAdjacentBlanks := by
    induction w with
    | nil => exact .nil
    | cons c w ih =>
      rw [List.forall_mem_cons] at h
      exact List.isChain_cons.mpr ⟨fun d _ => .inl h.1, ih h.2⟩
  spaces c hc hblank := by
    rw [h c hc] at hblank
    cases hblank

theorem append (hw : ∀ c ∈ w, isBlank c = false) (h : IsSpaced cs) : IsSpaced (w ++ cs) where
  noBlankAtEnd c hc := by
    rw [List.getLast?_append] at hc
    cases hlast : cs.getLast? with
    | none =>
      rw [hlast] at hc
      exact hw c (List.mem_of_mem_getLast? hc)
    | some d =>
      rw [hlast] at hc
      exact h.noBlankAtEnd c (hlast ▸ hc)
  noAdjacentBlanks := List.isChain_append.mpr ⟨(of_blank hw).noAdjacentBlanks, h.noAdjacentBlanks,
    fun c hc _ _ => .inl (hw c (List.mem_of_mem_getLast? hc))⟩
  spaces c hc hblank := by
    rcases List.mem_append.mp hc with hc | hc
    · exact (of_blank hw).spaces c hc hblank
    · exact h.spaces c hc hblank

theorem space_cons (hne : cs ≠ []) (hhead : ∀ c ∈ cs.head?, isBlank c = false) (h : IsSpaced cs) :
    IsSpaced (' ' :: cs) where
  noBlankAtEnd c hc := by
    rw [List.getLast?_cons_of_ne_nil hne] at hc
    exact h.noBlankAtEnd c hc
  noAdjacentBlanks := List.isChain_cons.mpr ⟨fun c hc => .inr (hhead c hc), h.noAdjacentBlanks⟩
  spaces c hc hblank := by
    rcases List.mem_cons.mp hc with rfl | hc
    · rfl
    · exact h.spaces c hc hblank

/-- Behind a blank there is more, and it starts with another character. -/
theorem of_append_blank {b : Char} (h : IsSpaced (w ++ b :: cs)) (hb : isBlank b = true) :
    b = ' ' ∧ cs ≠ [] ∧ (∀ c ∈ cs.head?, isBlank c = false) ∧ IsSpaced cs := by
  obtain ⟨-, hchain, -⟩ := List.isChain_append.mp h.noAdjacentBlanks
  obtain ⟨hnext, hchain⟩ := List.isChain_cons.mp hchain
  have hne : cs ≠ [] := by
    rintro rfl
    rw [h.noBlankAtEnd b (by simp)] at hb
    cases hb
  refine ⟨h.spaces b (by simp) hb, hne, ?_, ?_, hchain, fun c hc => h.spaces c (by simp [hc])⟩
  · intro c hc
    exact (hnext c hc).resolve_left (by simp [hb])
  · intro c hc
    refine h.noBlankAtEnd c ?_
    rw [List.getLast?_append, List.getLast?_cons_of_ne_nil hne, hc]
    rfl

end IsSpaced

/-- Words that are separated by single spaces are joined to the same text. -/
theorem joinChars_words {cs : List Char} (h : IsSpaced cs)
    (hstart : ∀ c ∈ cs.head?, isBlank c = false) : joinChars [' '] (words cs) = cs := by
  induction cs using blank_induction with
  | word w hw =>
    by_cases hne : w = []
    · rw [hne]
      rfl
    · rw [words_of_isWord ⟨hne, hw⟩]
      rfl
  | step w b rest hw hb ih =>
    obtain ⟨rfl, hne, hhead, hspaced⟩ := h.of_append_blank hb
    have hword : IsWord w := by
      refine ⟨?_, hw⟩
      rintro rfl
      rw [hstart ' ' rfl] at hb
      cases hb
    have hrest := ih hspaced hhead
    have hwords : words rest ≠ [] := by
      intro hnil
      rw [hnil] at hrest
      exact hne hrest.symm
    rw [words_append_cons hword hb, joinChars_cons hwords, hrest, List.append_assoc,
      List.singleton_append]

end ScriptExport.Text
