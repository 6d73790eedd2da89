import ScriptExport.Proofs.Text.Identifiers

/-!
# Texts with brackets

Texts such as `f(map<a, b>,int(*)(c, d)) const` are put together from parts that hold the separators
themselves. They can still be taken apart: a part closes every bracket that it opens and has no comma
outside of them. `depth` follows the brackets through a text and gives two decompositions. A list of
such parts can be read back from the text that joins them with commas (`eq_of_joinChars_eq`), and a name
with parentheses behind it can be cut where the last of them opens (`eq_of_append_paren_eq`).
-/

namespace ScriptExport.Text

/-- A bracket or a comma. -/
def isMark (c : Char) : Bool :=
  c == '(' || c == '<' || c == ')' || c == '>' || c == ','

/-- Whether the text has no bracket and no comma. -/
def isUnmarked (s : String) : Bool :=
  s.toList.all (!isMark ·)

theorem isUnmarked_iff {s : String} : isUnmarked s = true ↔ ∀ c ∈ s.toList, isMark c = false := by
  simp [isUnmarked]

/-- The number of open brackets after a character. There is none if the character closes a bracket that
is not open, or stands outside of all brackets and must not. -/
def depthStep (barred : Char → Bool) (n : Nat) (c : Char) : Option Nat :=
  if c == '(' || c == '<' then some (n + 1)
  else if c == ')' || c == '>' then
    match n with
    | 0 => none
    | m + 1 => some m
  else if n == 0 && barred c then none
  else some n

/-- The number of open brackets after a text. -/
def depth (barred : Char → Bool) (n : Nat) (cs : List Char) : Option Nat :=
  cs.foldlM (depthStep barred) n

/-- The text closes the brackets that it opens. -/
def IsBalanced (cs : List Char) : Prop :=
  depth (fun _ => false) 0 cs = some 0

/-- The text is one part of a list: it is not empty, closes the brackets that it opens, and has no comma
outside of them. -/
structure IsPart (cs : List Char) : Prop where
  ne_nil : cs ≠ []
  depth_eq : depth (· == ',') 0 cs = some 0

section Depth

variable {barred barred' : Char → Bool} {m n : Nat} {cs ds : List Char}

theorem depth_append (barred : Char → Bool) (n : Nat) (cs ds : List Char) :
    depth barred n (cs ++ ds) = (depth barred n cs).bind (depth barred · ds) :=
  List.foldlM_append

theorem depth_cons (barred : Char → Bool) (n : Nat) (c : Char) (cs : List Char) :
    depth barred n (c :: cs) = (depthStep barred n c).bind (depth barred · cs) :=
  List.foldlM_cons

/-- More open brackets allow more. -/
theorem depthStep_succ {c : Char} (h : depthStep barred m c = some n) :
    depthStep barred' (m + 1) c = some (n + 1) := by
  unfold depthStep at h ⊢
  split at h
  · next hopen =>
    rw [if_pos hopen]
    cases h
    rfl
  · next hopen =>
    rw [if_neg hopen]
    split at h
    · next hclose =>
      rw [if_pos hclose]
      cases m with
      | zero => cases h
      | succ m =>
        cases h
        rfl
    · next hclose =>
      rw [if_neg hclose]
      split at h
      · cases h
      · cases h
        rfl

/-- What one character may do at another depth, a text may do. -/
theorem depth_of_step {f : Nat → Nat}
    (hstep : ∀ {m n c}, depthStep barred m c = some n → depthStep barred' (f m) c = some (f n))
    (h : depth barred m cs = some n) : depth barred' (f m) cs = some (f n) := by
  induction cs generalizing m with
  | nil =>
    cases h
    rfl
  | cons c cs ih =>
    rw [depth_cons] at h ⊢
    obtain ⟨k, hfirst, hrest⟩ := Option.bind_eq_some_iff.mp h
    rw [hstep hfirst]
    exact ih hrest

theorem depth_succ (h : depth barred m cs = some n) : depth barred' (m + 1) cs = some (n + 1) :=
  depth_of_step (f := (· + 1)) depthStep_succ h

/-- A balanced text leaves the number of open brackets as it is. -/
theorem IsBalanced.depth_eq (h : IsBalanced cs) : (n : Nat) → depth (fun _ => false) n cs = some n
  | 0 => h
  | n + 1 => depth_succ (h.depth_eq n)

/-- What is allowed where some characters are barred is allowed where none is. -/
theorem depthStep_of_barred {c : Char} (h : depthStep barred m c = some n) :
    depthStep (fun _ => false) m c = some n := by
  unfold depthStep at h ⊢
  split at h
  · next hopen => rw [if_pos hopen, h]
  · next hopen =>
    rw [if_neg hopen]
    split at h
    · next hclose => rw [if_pos hclose, h]
    · next hclose =>
      rw [if_neg hclose, Bool.and_false, if_neg Bool.false_ne_true]
      split at h
      · cases h
      · exact h

/-- A text without marks opens and closes nothing. -/
theorem depth_of_unmarked (h : ∀ c ∈ cs, isMark c = false) (n : Nat) :
    depth (· == ',') n cs = some n := by
  induction cs with
  | nil => rfl
  | cons c cs ih =>
    obtain ⟨hc, hcs⟩ := List.forall_mem_cons.mp h
    simp only [isMark, Bool.or_eq_false_iff] at hc
    obtain ⟨⟨⟨⟨hparen, hangle⟩, hparen'⟩, hangle'⟩, hcomma⟩ := hc
    have hstep : depthStep (· == ',') n c = some n := by
      simp [depthStep, hparen, hangle, hparen', hangle', hcomma]
    rw [depth_cons, hstep]
    exact ih hcs

end Depth

/-! ## Parts -/

section Parts

variable {s t : List Char} {ss ts : List (List Char)}

theorem IsPart.isBalanced (h : IsPart s) : IsBalanced s :=
  depth_of_step (f := id) depthStep_of_barred h.depth_eq

theorem isPart_of_unmarked (hne : s ≠ []) (h : ∀ c ∈ s, isMark c = false) : IsPart s :=
  ⟨hne, depth_of_unmarked h 0⟩

theorem isMark_of_mem_identifierChars {cs : List Char} {c : Char} (h : c ∈ identifierChars cs) :
    isMark c = false := by
  cases hmark : isMark c with
  | false => rfl
  | true =>
    simp only [isMark, Bool.or_eq_true, beq_iff_eq] at hmark
    rcases (isStableIdentifier_identifierChars cs).chars c h with halnum | rfl
    · rcases hmark with (((rfl | rfl) | rfl) | rfl) | rfl <;> cases halnum
    · simp at hmark

/-- An identifier is one part of a list. -/
theorem isPart_identifier (text : String) : IsPart (identifier text).toList := by
  unfold identifier
  rw [String.toList_ofList]
  exact isPart_of_unmarked (isStableIdentifier_identifierChars _).ne_nil
    fun c hc => isMark_of_mem_identifierChars hc

theorem IsPart.append (hs : IsPart s) (ht : IsPart t) : IsPart (s ++ t) := by
  refine ⟨List.append_ne_nil_of_left_ne_nil hs.ne_nil t, ?_⟩
  rw [depth_append, hs.depth_eq]
  exact ht.depth_eq

/-- Brackets around a balanced text make a part of it, whatever commas it has. -/
theorem isPart_brackets {left right : Char} (hleft : left = '(' ∨ left = '<')
    (hright : right = ')' ∨ right = '>') (h : IsBalanced s) : IsPart (left :: (s ++ [right])) := by
  refine ⟨List.cons_ne_nil _ _, ?_⟩
  have hopen : depthStep (· == ',') 0 left = some 1 := by rcases hleft with rfl | rfl <;> rfl
  have hclose : depth (· == ',') 1 [right] = some 0 := by rcases hright with rfl | rfl <;> rfl
  rw [depth_cons, hopen]
  show depth (· == ',') 1 (s ++ [right]) = some 0
  rw [depth_append, depth_succ h]
  exact hclose

/-- Balanced texts stay balanced when a balanced text joins them. -/
theorem isBalanced_joinChars {sep : List Char} (hsep : IsBalanced sep) (h : ∀ s ∈ ss, IsBalanced s) :
    IsBalanced (joinChars sep ss) := by
  induction ss with
  | nil => rfl
  | cons s ss ih =>
    obtain ⟨hs, hss⟩ := List.forall_mem_cons.mp h
    cases ss with
    | nil => exact hs
    | cons t ss =>
      unfold IsBalanced
      rw [joinChars_cons (List.cons_ne_nil t ss), depth_append, depth_append, hs.depth_eq,
        Option.bind_some, hsep.depth_eq]
      exact ih hss

/-! ## Taking joined texts apart -/

/-- What follows the first of the joined texts. -/
def joinedRest (ss : List (List Char)) : List Char :=
  ss.flatMap (',' :: ·)

theorem joinChars_comma (s : List Char) (ss : List (List Char)) :
    joinChars [','] (s :: ss) = s ++ joinedRest ss := by
  induction ss generalizing s with
  | nil => exact (List.append_nil s).symm
  | cons t ss ih =>
    rw [joinChars_cons (List.cons_ne_nil t ss), ih, List.append_assoc]
    rfl

/-- A part ends where the rest of the list begins: it cannot be continued with a comma. -/
theorem IsPart.not_append_comma (hs : IsPart s) (rest : List Char) :
    ¬ IsPart (s ++ ',' :: rest) := by
  intro h
  have hdepth := h.depth_eq
  rw [depth_append, hs.depth_eq] at hdepth
  cases hdepth

theorem eq_of_append_joinedRest_eq (hs : IsPart s) (ht : IsPart t)
    (h : s ++ joinedRest ss = t ++ joinedRest ts) : s = t := by
  have hstart : ∀ {s t : List Char} {ss ts : List (List Char)}, IsPart s → IsPart t →
      ∀ more, t = s ++ more → joinedRest ss = more ++ joinedRest ts → s = t := by
    intro s t ss ts hs ht more hmore hrest
    cases more with
    | nil => rw [hmore, List.append_nil]
    | cons c more =>
      cases ss with
      | nil => cases hrest
      | cons s' ss =>
        obtain ⟨rfl, -⟩ := List.cons.inj hrest
        exact absurd (hmore ▸ ht) (hs.not_append_comma more)
  rcases List.append_eq_append_iff.mp h with ⟨more, hmore, hrest⟩ | ⟨more, hmore, hrest⟩
  · exact hstart hs ht more hmore hrest
  · exact (hstart ht hs more hmore hrest).symm

/-- Joined parts can be told apart. -/
theorem eq_of_joinedRest_eq (hs : ∀ s ∈ ss, IsPart s) (ht : ∀ t ∈ ts, IsPart t)
    (h : joinedRest ss = joinedRest ts) : ss = ts := by
  induction ss generalizing ts with
  | nil =>
    cases ts with
    | nil => rfl
    | cons t ts => cases h
  | cons s ss ih =>
    cases ts with
    | nil => cases h
    | cons t ts =>
      obtain ⟨hs, hss⟩ := List.forall_mem_cons.mp hs
      obtain ⟨ht, hts⟩ := List.forall_mem_cons.mp ht
      have hjoined : s ++ joinedRest ss = t ++ joinedRest ts := List.tail_eq_of_cons_eq h
      obtain rfl := eq_of_append_joinedRest_eq hs ht hjoined
      rw [ih hss hts (List.append_cancel_left hjoined)]

/-- A list of parts can be read back from the text that joins them. -/
theorem eq_of_joinChars_eq (hs : ∀ s ∈ ss, IsPart s) (ht : ∀ t ∈ ts, IsPart t)
    (h : joinChars [','] ss = joinChars [','] ts) : ss = ts := by
  cases ss with
  | nil =>
    cases ts with
    | nil => rfl
    | cons t ts =>
      rw [joinChars_comma] at h
      exact absurd (List.append_eq_nil_iff.mp h.symm).1 (ht t List.mem_cons_self).ne_nil
  | cons s ss =>
    cases ts with
    | nil =>
      rw [joinChars_comma] at h
      exact absurd (List.append_eq_nil_iff.mp h).1 (hs s List.mem_cons_self).ne_nil
    | cons t ts =>
      rw [joinChars_comma, joinChars_comma] at h
      exact eq_of_joinedRest_eq hs ht (congrArg (',' :: ·) h)

end Parts

/-! ## Texts in parentheses -/

section Parenthesized

variable {s t name name' : List Char}

/-- A balanced text does not open a bracket for another balanced text that ends with it. -/
theorem IsBalanced.ne_append_paren (hs : IsBalanced s) (ht : IsBalanced t) (more : List Char) :
    s ≠ more ++ '(' :: t := by
  rintro rfl
  unfold IsBalanced at hs
  rw [depth_append] at hs
  obtain ⟨n, -, hrest⟩ := Option.bind_eq_some_iff.mp hs
  have hopen : depthStep (fun _ => false) n '(' = some (n + 1) := rfl
  rw [depth_cons, hopen, Option.bind_some, ht.depth_eq] at hrest
  cases hrest

/-- A balanced rest tells where the name before it ends. -/
theorem eq_of_append_paren_eq (hs : IsBalanced s) (ht : IsBalanced t)
    (h : name ++ '(' :: s = name' ++ '(' :: t) : name = name' ∧ s = t := by
  have hstart : ∀ {name name' s t : List Char}, IsBalanced s → IsBalanced t →
      ∀ more, name' = name ++ more → '(' :: s = more ++ '(' :: t → name = name' ∧ s = t := by
    intro name name' s t hs ht more hmore hrest
    cases more with
    | nil =>
      cases hrest
      exact ⟨(hmore.trans (List.append_nil name)).symm, rfl⟩
    | cons c more =>
      obtain ⟨-, hs'⟩ := List.cons.inj hrest
      exact absurd hs' (hs.ne_append_paren ht more)
  rcases List.append_eq_append_iff.mp h with ⟨more, hmore, hrest⟩ | ⟨more, hmore, hrest⟩
  · exact hstart hs ht more hmore hrest
  · obtain ⟨hname, hst⟩ := hstart ht hs more hmore hrest
    exact ⟨hname.symm, hst.symm⟩

end Parenthesized

end ScriptExport.Text
