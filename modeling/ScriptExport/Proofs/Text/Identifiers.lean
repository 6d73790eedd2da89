import Mathlib.Data.List.Chain
import ScriptExport.Proofs.Text.Trimming
import ScriptExport.Text.Spelling

/-!
# Identifiers for unresolved types

What has no usable name gets an identifier made of the ASCII letters and digits of its text. What is left
when runs of other characters are squeezed and marks at the ends are dropped is `IsStripped`, and an
identifier is such a text with a mark put back before a digit (`IsStableIdentifier`). A text of that form
is its own identifier (`identifierChars_eq_self`), so a second pass changes nothing.
-/

namespace ScriptExport.Text

/-- ASCII letters, digits and single marks, none of them at the end. -/
structure SingleMarks (cs : List Char) : Prop where
  chars : ∀ c ∈ cs, isAsciiAlnum c = true ∨ c = '_'
  noAdjacentMarks : cs.IsChain fun c d => c ≠ '_' ∨ d ≠ '_'
  noMarkAtEnd : '_' ∉ cs.getLast?

/-- Single marks with letters and digits around them. -/
structure IsStripped (cs : List Char) : Prop extends SingleMarks cs where
  noMarkAtStart : '_' ∉ cs.head?

/-- An identifier with single marks. It starts with a mark only if a digit follows. -/
structure IsStableIdentifier (cs : List Char) : Prop extends SingleMarks cs where
  ne_nil : cs ≠ []
  noDigitAtStart : ∀ c ∈ cs.head?, c.isDigit = false
  digitAfterMark : ∀ rest, cs = '_' :: rest → ∃ d ∈ rest.head?, d.isDigit = true

variable {cs : List Char}

/-! ## Squeezing -/

theorem mem_squeeze {inRun : Bool} {c : Char} (h : c ∈ squeeze inRun cs) :
    isAsciiAlnum c = true ∨ c = '_' := by
  induction cs generalizing inRun with
  | nil => cases h
  | cons d cs ih =>
    rw [squeeze] at h
    split at h
    · next hd =>
      rcases List.mem_cons.mp h with rfl | h
      · exact .inl hd
      · exact ih h
    · split at h
      · exact ih h
      · rcases List.mem_cons.mp h with rfl | h
        · exact .inr rfl
        · exact ih h

theorem filter_squeeze (inRun : Bool) (cs : List Char) :
    (squeeze inRun cs).filter isAsciiAlnum = cs.filter isAsciiAlnum := by
  induction cs generalizing inRun with
  | nil => rfl
  | cons c cs ih =>
    rw [squeeze]
    split
    · next hc => rw [List.filter_cons_of_pos hc, List.filter_cons_of_pos hc, ih]
    · next hc =>
      rw [List.filter_cons_of_neg hc]
      split
      · exact ih true
      · rw [List.filter_cons_of_neg (by decide), ih]

/-- No two marks are side by side, also if there was one before. -/
theorem isChain_squeeze (inRun : Bool) (cs : List Char) :
    (squeeze inRun cs).IsChain (fun c d => c ≠ '_' ∨ d ≠ '_') ∧
      (inRun = true → '_' ∉ (squeeze inRun cs).head?) := by
  induction cs generalizing inRun with
  | nil => exact ⟨.nil, fun _ => nofun⟩
  | cons c cs ih =>
    rw [squeeze]
    split
    · next hc =>
      have hne : c ≠ '_' := by rintro rfl; cases hc
      exact ⟨List.isChain_cons.mpr ⟨fun _ _ => .inl hne, (ih false).1⟩, fun _ => by simpa using hne⟩
    · obtain ⟨hchain, hhead⟩ := ih true
      split
      · exact ⟨hchain, fun _ => hhead rfl⟩
      · next hrun =>
        refine ⟨List.isChain_cons.mpr ⟨fun d hd => .inr ?_, hchain⟩, fun h => absurd h hrun⟩
        rintro rfl
        exact hhead rfl hd

/-- Text whose marks stand alone stays as it is. -/
theorem squeeze_eq_self {inRun : Bool} (hchars : ∀ c ∈ cs, isAsciiAlnum c = true ∨ c = '_')
    (hchain : cs.IsChain fun c d => c ≠ '_' ∨ d ≠ '_') (hhead : inRun = true → '_' ∉ cs.head?) :
    squeeze inRun cs = cs := by
  induction cs generalizing inRun with
  | nil => rfl
  | cons c cs ih =>
    rw [List.forall_mem_cons] at hchars
    rw [List.isChain_cons] at hchain
    rw [squeeze]
    split
    · rw [ih hchars.2 hchain.2 fun h => Bool.noConfusion h]
    · next hmark =>
      obtain rfl := hchars.1.resolve_left hmark
      have hrun : ¬ inRun = true := fun h => hhead h rfl
      rw [if_neg hrun, ih hchars.2 hchain.2 fun _ hd => (hchain.1 '_' hd).elim (· rfl) (· rfl)]

/-! ## Marks at the ends -/

theorem infix_stripMarks (cs : List Char) : stripMarks cs <:+: cs :=
  infix_rdropWhile_dropWhile (· == '_') cs

theorem filter_dropWhile_mark (cs : List Char) :
    (cs.dropWhile (· == '_')).filter isAsciiAlnum = cs.filter isAsciiAlnum := by
  induction cs with
  | nil => rfl
  | cons c cs ih =>
    by_cases hc : c = '_'
    · rw [hc, List.dropWhile_cons_of_pos rfl, ih, List.filter_cons_of_neg (by decide)]
    · rw [List.dropWhile_cons_of_neg (by simpa using hc)]

theorem filter_stripMarks (cs : List Char) :
    (stripMarks cs).filter isAsciiAlnum = cs.filter isAsciiAlnum := by
  unfold stripMarks
  rw [List.filter_reverse, filter_dropWhile_mark, List.filter_reverse, List.reverse_reverse,
    filter_dropWhile_mark]

theorem isStripped_stripMarks_squeeze (cs : List Char) : IsStripped (stripMarks (squeeze false cs)) where
  chars _ hc := mem_squeeze ((infix_stripMarks _).subset hc)
  noAdjacentMarks := List.IsChain.infix (isChain_squeeze false cs).1 (infix_stripMarks _)
  noMarkAtStart h := Bool.noConfusion (head?_rdropWhile_dropWhile h)
  noMarkAtEnd h := Bool.noConfusion (getLast?_rdropWhile h)

theorem SingleMarks.tail {c d : Char} (h : SingleMarks (c :: d :: cs)) : SingleMarks (d :: cs) where
  chars := (List.forall_mem_cons.mp h.chars).2
  noAdjacentMarks := (List.isChain_cons_cons.mp h.noAdjacentMarks).2
  noMarkAtEnd := List.getLast?_cons_cons ▸ h.noMarkAtEnd

namespace IsStripped

theorem stripMarks_eq_self (h : IsStripped cs) : stripMarks cs = cs := by
  refine rdropWhile_dropWhile_eq_self (fun c hc => ?_) (fun c hc => ?_)
  · simpa using fun hmark : c = '_' => h.noMarkAtStart (hmark ▸ hc)
  · simpa using fun hmark : c = '_' => h.noMarkAtEnd (hmark ▸ hc)

theorem stripMarks_squeeze (h : IsStripped cs) (inRun : Bool) : stripMarks (squeeze inRun cs) = cs := by
  rw [squeeze_eq_self h.chars h.noAdjacentMarks fun _ => h.noMarkAtStart, h.stripMarks_eq_self]

/-- A mark in front is dropped again. -/
theorem stripMarks_squeeze_mark (h : IsStripped cs) : stripMarks (squeeze false ('_' :: cs)) = cs :=
  h.stripMarks_squeeze true

theorem ne_mark {c : Char} (h : IsStripped (c :: cs)) : c ≠ '_' :=
  fun hmark => h.noMarkAtStart (hmark ▸ rfl)

/-- A mark before a digit makes an identifier. -/
theorem isStableIdentifier {c : Char} (h : IsStripped (c :: cs)) :
    IsStableIdentifier (if c.isDigit then '_' :: c :: cs else c :: cs) := by
  split
  · next hdigit =>
    refine ⟨⟨?_, ?_, ?_⟩, List.cons_ne_nil _ _, ?_, ?_⟩
    · exact List.forall_mem_cons.mpr ⟨.inr rfl, h.chars⟩
    · exact List.isChain_cons_cons.mpr ⟨.inr h.ne_mark, h.noAdjacentMarks⟩
    · rw [List.getLast?_cons_cons]
      exact h.noMarkAtEnd
    · exact fun d hd => Option.some.inj hd ▸ rfl
    · exact fun rest hrest => ⟨c, (List.cons.inj hrest).2 ▸ rfl, hdigit⟩
  · next hdigit =>
    refine ⟨h.toSingleMarks, List.cons_ne_nil _ _, ?_, ?_⟩
    · exact fun d hd => Option.some.inj hd ▸ Bool.not_eq_true _ ▸ hdigit
    · exact fun rest hrest => absurd (List.cons.inj hrest).1 h.ne_mark

end IsStripped

/-! ## Identifiers -/

theorem identifierChars_of_cons {c : Char} {rest : List Char}
    (h : stripMarks (squeeze false cs) = c :: rest) :
    identifierChars cs = if c.isDigit then '_' :: c :: rest else c :: rest := by
  unfold identifierChars
  rw [h]

/-- The identifier of a text is stable. -/
theorem isStableIdentifier_identifierChars (cs : List Char) : IsStableIdentifier (identifierChars cs) := by
  have hstripped := isStripped_stripMarks_squeeze cs
  cases hrest : stripMarks (squeeze false cs) with
  | nil =>
    -- the word that stands for no letters is its own identifier
    have hunknown := isStripped_stripMarks_squeeze ['u', 'n', 'k', 'n', 'o', 'w', 'n']
    unfold identifierChars
    rw [hrest]
    exact hunknown.isStableIdentifier
  | cons c rest =>
    rw [hrest] at hstripped
    rw [identifierChars_of_cons hrest]
    exact hstripped.isStableIdentifier

/-- A stable identifier stays as it is. -/
theorem identifierChars_eq_self (h : IsStableIdentifier cs) : identifierChars cs = cs := by
  cases cs with
  | nil => exact absurd rfl h.ne_nil
  | cons c cs =>
    by_cases hmark : c = '_'
    · subst hmark
      obtain ⟨d, hd, hdigit⟩ := h.digitAfterMark cs rfl
      cases cs with
      | nil => cases hd
      | cons e cs =>
        obtain rfl := Option.some.inj hd
        have hne : '_' ∉ (e :: cs).head? := by
          intro hmark
          rw [Option.some.inj hmark] at hdigit
          cases hdigit
        have hstripped : IsStripped (e :: cs) := ⟨h.toSingleMarks.tail, hne⟩
        rw [identifierChars_of_cons hstripped.stripMarks_squeeze_mark, if_pos hdigit]
    · have hstripped : IsStripped (c :: cs) :=
        ⟨h.toSingleMarks, fun hhead => hmark (Option.some.inj hhead)⟩
      rw [identifierChars_of_cons (hstripped.stripMarks_squeeze false),
        if_neg (by simp [h.noDigitAtStart c rfl])]

/-- The letters and digits of the text are kept, unless there are none. -/
theorem filter_identifierChars (cs : List Char) :
    (cs.filter isAsciiAlnum = [] ∧ identifierChars cs = ['u', 'n', 'k', 'n', 'o', 'w', 'n']) ∨
    (cs.filter isAsciiAlnum ≠ [] ∧
      (identifierChars cs).filter isAsciiAlnum = cs.filter isAsciiAlnum) := by
  have hkept : (stripMarks (squeeze false cs)).filter isAsciiAlnum = cs.filter isAsciiAlnum :=
    (filter_stripMarks _).trans (filter_squeeze false cs)
  have hstripped := isStripped_stripMarks_squeeze cs
  cases hrest : stripMarks (squeeze false cs) with
  | nil =>
    rw [hrest] at hkept
    exact .inl ⟨hkept.symm, by rw [identifierChars, hrest]⟩
  | cons c rest =>
    rw [hrest] at hkept hstripped
    have hc : isAsciiAlnum c = true :=
      (hstripped.chars c List.mem_cons_self).resolve_right hstripped.ne_mark
    refine .inr ⟨?_, ?_⟩
    · rw [← hkept, List.filter_cons_of_pos hc]
      exact List.cons_ne_nil _ _
    · rw [← hkept, identifierChars_of_cons hrest]
      split
      · rw [List.filter_cons_of_neg (by decide)]
      · rfl

/-- **Identifiers are stable.** The identifier of any text has the form of one, keeps the ASCII letters and
digits of the text in their order, or is `unknown` if there are none, and is its own identifier. -/
theorem identifier_stable (text : String) :
    IsStableIdentifier (identifier text).toList ∧
    ((text.toList.filter isAsciiAlnum = [] ∧ identifier text = "unknown") ∨
      (text.toList.filter isAsciiAlnum ≠ [] ∧
        (identifier text).toList.filter isAsciiAlnum = text.toList.filter isAsciiAlnum)) ∧
    identifier (identifier text) = identifier text := by
  have hstable := isStableIdentifier_identifierChars text.toList
  have hchars : (identifier text).toList = identifierChars text.toList := String.toList_ofList
  rw [hchars]
  refine ⟨hstable, ?_, ?_⟩
  · refine (filter_identifierChars text.toList).imp_left fun hnone => ⟨hnone.1, ?_⟩
    rw [identifier, hnone.2]
  · rw [identifier, hchars, identifierChars_eq_self hstable, identifier]

end ScriptExport.Text
