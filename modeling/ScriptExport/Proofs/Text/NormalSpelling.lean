import ScriptExport.Proofs.Text.Spelling

/-!
# Normal spellings

A normalized spelling is the words of the name, written with a space between two neighbours unless one
of them has `::` on the side of the other (`spellingChars_eq_writeWords`). It is meant to have a normal
form (`IsNormal`), and the texts of that form are exactly those that normalizing leaves alone
(`spellingChars_eq_self_iff`). But the stages run once and in a fixed order, and a later one can make
work for an earlier one: what stands behind a first word of nothing but `::` keeps the space or the `::` at
its start, a qualifier may come out of its `::`, and a lone `:` may form a new `::` with a neighbour when
the space between them is dropped. `WellSpelled` says in terms of the words when none of this happens
(`isNormal_writeWords_iff`).
-/

namespace ScriptExport.Text

/-! ## Words and the spaces between them -/

/-- The words one after the other, with a space between two neighbours unless they are `closed`. -/
def writeWords (closed : List Char → List Char → Bool) : List (List Char) → List Char
  | [] => []
  | [w] => w
  | u :: v :: ws => u ++ (if closed u v then [] else [' ']) ++ writeWords closed (v :: ws)

theorem joinChars_eq_writeWords (ws : List (List Char)) :
    joinChars [' '] ws = writeWords (fun _ _ => false) ws := by
  fun_induction writeWords (fun _ _ => false) ws with
  | case1 => rfl
  | case2 w => rfl
  | case3 u v ws ih =>
    rw [joinChars_cons (List.cons_ne_nil v ws), ih]
    rfl

theorem prefix_writeWords (closed : List Char → List Char → Bool) (w : List Char)
    (ws : List (List Char)) : w <+: writeWords closed (w :: ws) := by
  cases ws with
  | nil => exact List.prefix_refl w
  | cons v ws =>
    rw [writeWords, List.append_assoc]
    exact List.prefix_append w _

/-! ### What closing up does -/

variable {u w cs : List Char} {ws : List (List Char)}

theorem closeBeforeColons_append (hu : ' ' ∉ u) (cs : List Char) :
    closeBeforeColons (u ++ cs) = u ++ closeBeforeColons cs := by
  induction u with
  | nil => rfl
  | cons c u ih =>
    rw [List.mem_cons, not_or] at hu
    rw [List.cons_append, closeBeforeColons, ih hu.2]
    · rfl
    · rintro _ rfl
      exact absurd rfl hu.1

theorem closeBeforeColons_space (cs : List Char) :
    closeBeforeColons (' ' :: cs) =
      (if [':', ':'] <+: cs then [] else [' ']) ++ closeBeforeColons cs := by
  by_cases hcs : [':', ':'] <+: cs
  · obtain ⟨rest, rfl⟩ := hcs
    rw [if_pos (List.prefix_append _ _), closeBeforeColons_append (by decide)]
    rfl
  · rw [if_neg hcs, closeBeforeColons]
    · rfl
    · rintro rest - rfl
      exact hcs (List.prefix_append [':', ':'] rest)

theorem colons_prefix_append_space (cs : List Char) :
    [':', ':'] <+: w ++ ' ' :: cs ↔ [':', ':'] <+: w := by
  match w with
  | [] => simp
  | [c] => simp
  | c :: d :: w => simp [List.cons_prefix_cons]

theorem closeBeforeColons_joinChars (hws : ∀ w ∈ ws, ' ' ∉ w) :
    closeBeforeColons (joinChars [' '] ws) = writeWords (fun _ v => [':', ':'] <+: v) ws := by
  induction ws with
  | nil => rfl
  | cons u ws ih =>
    obtain ⟨hu, hws⟩ := List.forall_mem_cons.mp hws
    cases ws with
    | nil =>
      have hclose := closeBeforeColons_append hu []
      rwa [List.append_nil, closeBeforeColons, List.append_nil] at hclose
    | cons v ws =>
      have hstart : [':', ':'] <+: joinChars [' '] (v :: ws) ↔ [':', ':'] <+: v := by
        cases ws with
        | nil => exact Iff.rfl
        | cons w ws =>
          rw [joinChars_cons (List.cons_ne_nil w ws), List.append_assoc]
          exact colons_prefix_append_space _
      rw [joinChars_cons (List.cons_ne_nil v ws), List.append_assoc, closeBeforeColons_append hu,
        List.singleton_append, closeBeforeColons_space, ih hws, writeWords, List.append_assoc]
      simp only [hstart, decide_eq_true_eq]

theorem closeAfterColons_append (hu : ' ' ∉ u) (hcs : [':', ':'] <+: cs) :
    closeAfterColons (u ++ cs) = u ++ closeAfterColons cs := by
  obtain ⟨rest, rfl⟩ := hcs
  induction u with
  | nil => rfl
  | cons c u ih =>
    rw [List.mem_cons, not_or] at hu
    rw [List.cons_append, closeAfterColons, ih hu.2]
    · rfl
    · rintro rest' - heq
      -- the third character is one of `u`, or a colon
      match u with
      | [] => simp at heq
      | [d] => simp at heq
      | d :: e :: u =>
        simp only [List.cons_append, List.cons.injEq] at heq
        exact hu.2 (by simp [heq.2.1])

theorem closeAfterColons_space (hu : ' ' ∉ u) (cs : List Char) : closeAfterColons (u ++ ' ' :: cs) =
      u ++ (if [':', ':'] <:+ u then [] else [' ']) ++ closeAfterColons cs := by
  induction u with
  | nil => simp [closeAfterColons]
  | cons c u ih =>
    rw [List.mem_cons, not_or] at hu
    by_cases hlast : c = ':' ∧ u = [':']
    · obtain ⟨rfl, rfl⟩ := hlast
      simp [closeAfterColons]
    · have hsuffix : [':', ':'] <:+ c :: u ↔ [':', ':'] <:+ u := by
        rw [List.suffix_cons_iff]
        constructor
        · rintro (heq | h)
          · cases heq
            exact absurd ⟨rfl, rfl⟩ hlast
          · exact h
        · exact .inr
      rw [List.cons_append, closeAfterColons, ih hu.2]
      · simp only [hsuffix, List.cons_append]
      · rintro rest rfl heq
        match u with
        | [] => simp at heq
        | [d] =>
          simp only [List.cons_append, List.cons.injEq] at heq
          exact hlast ⟨rfl, by rw [heq.1]⟩
        | d :: e :: u =>
          simp only [List.cons_append, List.cons.injEq] at heq
          exact hu.2 (by simp [heq.2.1])

theorem closeAfterColons_of_space_not_mem (hu : ' ' ∉ u) : closeAfterColons u = u := by
  fun_induction closeAfterColons u with
  | case1 cs ih => simp at hu
  | case2 c cs _ ih => rw [ih fun h => hu (List.mem_cons_of_mem c h)]
  | case3 => rfl

/-- Whether two neighbouring words are written without a space: the first ends in `::`, or the second
starts with it. -/
def isGlued (u v : List Char) : Bool :=
  [':', ':'] <:+ u ∨ [':', ':'] <+: v

/-- Closing up on both sides of `::` glues words. -/
theorem closeAfterColons_writeWords (hws : ∀ w ∈ ws, ' ' ∉ w) :
    closeAfterColons (writeWords (fun _ v => [':', ':'] <+: v) ws) = writeWords isGlued ws := by
  induction ws with
  | nil => rfl
  | cons u ws ih =>
    obtain ⟨hu, hws⟩ := List.forall_mem_cons.mp hws
    cases ws with
    | nil => exact closeAfterColons_of_space_not_mem hu
    | cons v ws =>
      rw [writeWords, writeWords, isGlued]
      by_cases hv : [':', ':'] <+: v
      · simp only [hv, decide_true, or_true, if_true, List.append_nil]
        rw [closeAfterColons_append hu (hv.trans (prefix_writeWords _ v ws)), ih hws]
      · simp only [hv, decide_false, or_false, Bool.false_eq_true, if_false, decide_eq_true_eq]
        rw [List.append_assoc, List.singleton_append, closeAfterColons_space hu, ih hws]

/-! ### The words of a name -/

/-- The words of a name that are no qualifiers, the first one without the `::` at its start. -/
def nameWords (cs : List Char) : List (List Char) :=
  match (words cs).filter (fun w => !isQualifier w) with
  | [] => []
  | w :: ws => dropColons w :: ws

theorem dropColons_append_space (w cs : List Char) :
    dropColons (w ++ ' ' :: cs) = dropColons w ++ ' ' :: cs := by
  fun_induction dropColons w with
  | case1 w ih => exact ih
  | case2 w hw =>
    rw [dropColons]
    intro rest heq
    have hcolons : [':', ':'] <+: w :=
      (colons_prefix_append_space cs).mp (heq ▸ List.prefix_append [':', ':'] rest)
    obtain ⟨rest', rfl⟩ := hcolons
    exact hw rest' rfl

theorem dropColons_joinChars_space (w : List Char) (ws : List (List Char)) :
    dropColons (joinChars [' '] (w :: ws)) = joinChars [' '] (dropColons w :: ws) := by
  cases ws with
  | nil => rfl
  | cons v ws =>
    rw [joinChars_cons (List.cons_ne_nil v ws), joinChars_cons (List.cons_ne_nil v ws),
      List.append_assoc, List.append_assoc]
    exact dropColons_append_space w _

theorem of_mem_plain (hw : w ∈ (words cs).filter (fun w => !isQualifier w)) :
    IsWord w ∧ isQualifier w = false := by
  obtain ⟨hword, hqualifier⟩ := List.mem_filter.mp hw
  exact ⟨isWord_of_mem_words hword, by simpa using hqualifier⟩

theorem blank_of_mem_nameWords (hw : w ∈ nameWords cs) : ∀ c ∈ w, isBlank c = false := by
  unfold nameWords at hw
  split at hw
  · cases hw
  · next u ws hwords =>
    have hplain : ∀ w ∈ u :: ws, ∀ c ∈ w, isBlank c = false :=
      fun w hw => (of_mem_plain (hwords ▸ hw)).1.blank
    rcases List.mem_cons.mp hw with rfl | hw
    · exact fun c hc => hplain u List.mem_cons_self c ((dropColons_suffix u).subset hc)
    · exact hplain w (List.mem_cons_of_mem u hw)

theorem of_mem_tail_nameWords (hw : w ∈ (nameWords cs).tail) :
    IsWord w ∧ isQualifier w = false := by
  unfold nameWords at hw
  split at hw
  · cases hw
  · next u ws hwords => exact of_mem_plain (hwords ▸ List.mem_cons_of_mem u hw)

theorem not_colons_prefix_of_head?_nameWords (hw : w ∈ (nameWords cs).head?) :
    ¬ [':', ':'] <+: w := by
  unfold nameWords at hw
  split at hw
  · cases hw
  · obtain rfl := Option.some.inj hw
    exact not_colons_prefix_dropColons _

/-- A normalized spelling is the words of the name, glued where one of two neighbours has `::` on the
side of the other. -/
theorem spellingChars_eq_writeWords (cs : List Char) :
    spellingChars cs = writeWords isGlued (nameWords cs) := by
  have hspace : ∀ w ∈ nameWords cs, ' ' ∉ w :=
    fun w hw hmem => Bool.noConfusion (blank_of_mem_nameWords hw ' ' hmem)
  have hdrop : dropColons (plainWords cs) = joinChars [' '] (nameWords cs) := by
    unfold plainWords nameWords
    split
    · next hnil =>
      rw [hnil]
      rfl
    · next w ws hwords =>
      rw [hwords]
      exact dropColons_joinChars_space w ws
  rw [spellingChars, hdrop, closeBeforeColons_joinChars hspace, closeAfterColons_writeWords hspace]

/-! ## Normal texts -/

/-- The form of a normalized spelling: single spaces and none at either end, no `::` at the start, no
space beside `::`, and no qualifier among the words. -/
structure IsNormal (cs : List Char) : Prop extends IsSpaced cs where
  noBlankAtStart : ∀ c ∈ cs.head?, isBlank c = false
  noColonsAtStart : ¬ [':', ':'] <+: cs
  noSpaceBeforeColons : ¬ [' ', ':', ':'] <:+: cs
  noSpaceAfterColons : ¬ [':', ':', ' '] <:+: cs
  noQualifier : ∀ w ∈ words cs, isQualifier w = false

theorem blank_head?_writeWords (hw : IsWord w) (closed : List Char → List Char → Bool)
    (ws : List (List Char)) :
    writeWords closed (w :: ws) ≠ [] ∧ ∀ c ∈ (writeWords closed (w :: ws)).head?, isBlank c = false := by
  obtain ⟨rest, hrest⟩ := prefix_writeWords closed w ws
  obtain ⟨c, w, rfl⟩ := List.exists_cons_of_ne_nil hw.ne_nil
  rw [← hrest]
  refine ⟨List.cons_ne_nil _ _, ?_⟩
  intro d hd
  obtain rfl := Option.some.inj hd
  exact hw.blank c List.mem_cons_self

theorem isSpaced_writeWords (closed : List Char → List Char → Bool)
    (hw : ∀ c ∈ w, isBlank c = false) (hws : ∀ v ∈ ws, IsWord v) :
    IsSpaced (writeWords closed (w :: ws)) := by
  induction ws generalizing w with
  | nil => exact .of_blank hw
  | cons v ws ih =>
    obtain ⟨hv, hws⟩ := List.forall_mem_cons.mp hws
    obtain ⟨hne, hhead⟩ := blank_head?_writeWords hv closed ws
    have hrest := ih hv.blank hws
    rw [writeWords, List.append_assoc]
    refine .append hw ?_
    split
    · exact hrest
    · exact hrest.space_cons hne hhead

/-- What is its own plain words is spaced and without qualifiers. -/
theorem plainWords_eq_self_iff : plainWords cs = cs ↔
    IsSpaced cs ∧ (∀ c ∈ cs.head?, isBlank c = false) ∧ ∀ w ∈ words cs, isQualifier w = false := by
  have hplain : ∀ w ∈ (words cs).filter (fun w => !isQualifier w),
      IsWord w ∧ isQualifier w = false := fun w hw => of_mem_plain hw
  constructor
  · intro h
    unfold plainWords at h
    generalize (words cs).filter (fun w => !isQualifier w) = ws at h hplain
    have hwords : ∀ w ∈ ws, IsWord w := fun w hw => (hplain w hw).1
    have hspaced : IsSpaced cs ∧ ∀ c ∈ cs.head?, isBlank c = false := by
      rw [← h, joinChars_eq_writeWords]
      cases ws with
      | nil => exact ⟨.of_blank (List.forall_mem_nil _), fun c hc => by cases hc⟩
      | cons w ws =>
        obtain ⟨hw, hws⟩ := List.forall_mem_cons.mp hwords
        exact ⟨isSpaced_writeWords _ hw.blank hws, (blank_head?_writeWords hw _ ws).2⟩
    refine ⟨hspaced.1, hspaced.2, ?_⟩
    rw [← h, words_joinChars hwords]
    exact fun w hw => (hplain w hw).2
  · rintro ⟨hspaced, hstart, hqualifier⟩
    unfold plainWords
    rw [List.filter_eq_self.mpr fun w hw => by simp [hqualifier w hw]]
    exact joinChars_words hspaced hstart

/-- The normal texts are those that are spelled as they stand. -/
theorem spellingChars_eq_self_iff : spellingChars cs = cs ↔ IsNormal cs := by
  constructor
  · intro h
    -- each stage only takes away, so none of them takes anything
    have hplain : plainWords cs = cs := by
      have hkept := spellingChars_sublist cs
      rw [h] at hkept
      exact (hkept.eq_of_length_le (length_joinChars_filter_words_le _ cs)).symm
    have hdrop : dropColons cs = cs := by
      have hkept := (closeAfterColons_sublist _).trans (closeBeforeColons_sublist (dropColons cs))
      rw [spellingChars, hplain] at h
      rw [h] at hkept
      exact (dropColons_suffix cs).sublist.antisymm hkept
    have hbefore : closeBeforeColons cs = cs := by
      have hkept := closeAfterColons_sublist (closeBeforeColons cs)
      rw [spellingChars, hplain, hdrop] at h
      rw [h] at hkept
      exact (closeBeforeColons_sublist cs).antisymm hkept
    have hafter : closeAfterColons cs = cs := by
      rwa [spellingChars, hplain, hdrop, hbefore] at h
    obtain ⟨hspaced, hstart, hqualifier⟩ := plainWords_eq_self_iff.mp hplain
    exact ⟨hspaced, hstart, dropColons_eq_self_iff.mp hdrop, closeBeforeColons_eq_self_iff.mp hbefore,
      closeAfterColons_eq_self_iff.mp hafter, hqualifier⟩
  · intro h
    rw [spellingChars, plainWords_eq_self_iff.mpr ⟨h.toIsSpaced, h.noBlankAtStart, h.noQualifier⟩,
      dropColons_eq_self_iff.mpr h.noColonsAtStart,
      closeBeforeColons_eq_self_iff.mpr h.noSpaceBeforeColons,
      closeAfterColons_eq_self_iff.mpr h.noSpaceAfterColons]

/-! ## Names whose spelling is normal -/

/-- A lone colon between two words is glued to both of them or to neither. -/
def EvenColons (ws : List (List Char)) : Prop :=
  ∀ u v, [u, [':'], v] <:+: ws → ([':', ':'] <:+ u ↔ [':', ':'] <+: v)

/-- What the words of a name have to be like for the normalized spelling to be normal: a first word of
nothing but `::` is the only one, a first word that turns out to be a qualifier without its `::` is glued to
the next one, and lone colons are even, where one at the start counts as after a word without `::`. -/
structure WellSpelled (ws : List (List Char)) : Prop where
  bare : ws.head? = some [] → ws.tail = []
  qualifier : ∀ w ∈ ws.head?, isQualifier w = true → ∃ v ∈ ws.tail.head?, [':', ':'] <+: v
  colons : EvenColons ([] :: ws)

theorem evenColons_cons (a u v : List Char) (ws : List (List Char)) :
    EvenColons (a :: u :: v :: ws) ↔
      (u = [':'] → ([':', ':'] <:+ a ↔ [':', ':'] <+: v)) ∧ EvenColons (u :: v :: ws) := by
  unfold EvenColons
  constructor
  · intro h
    refine ⟨?_, fun x y hxy => h x y (List.infix_cons hxy)⟩
    rintro rfl
    exact h a v (List.prefix_append [a, [':'], v] ws).isInfix
  · rintro ⟨hfirst, hrest⟩ x y hxy
    rcases List.infix_cons_iff.mp hxy with ⟨rest, heq⟩ | hxy
    · simp only [List.cons_append, List.nil_append, List.cons.injEq] at heq
      obtain ⟨rfl, rfl, rfl, -⟩ := heq
      exact hfirst rfl
    · exact hrest x y hxy

theorem evenColons_of_length_le (h : ws.length ≤ 2) : EvenColons ws := by
  intro u v huv
  have hlength : 3 ≤ ws.length := huv.length_le
  omega

/-! ### Spaces beside colons -/

theorem colons_prefix_append (hu : u ≠ []) (cs : List Char) :
    [':', ':'] <+: u ++ cs ↔ [':', ':'] <+: u ∨ u = [':'] ∧ [':'] <+: cs := by
  match u with
  | [] => exact absurd rfl hu
  | [c] => simp [List.cons_prefix_cons, eq_comm]
  | c :: d :: u => simp [List.cons_prefix_cons]

theorem colons_suffix_append (hu : u ≠ []) (p : List Char) :
    [':', ':'] <:+ p ++ u ↔ [':', ':'] <:+ u ∨ u = [':'] ∧ [':'] <:+ p := by
  have hcolon : u.reverse = [':'] ↔ u = [':'] := List.reverse_eq_iff
  have hreverse := colons_prefix_append (u := u.reverse) (by simpa using hu) p.reverse
  rw [← List.reverse_append, hcolon] at hreverse
  rw [← List.reverse_prefix, ← List.reverse_prefix, ← List.reverse_prefix]
  exact hreverse

theorem space_colons_infix_append (hu : ' ' ∉ u) (cs : List Char) :
    [' ', ':', ':'] <:+: u ++ cs ↔ [' ', ':', ':'] <:+: cs := by
  induction u with
  | nil => exact Iff.rfl
  | cons c u ih =>
    rw [List.mem_cons, not_or] at hu
    rw [List.cons_append, List.infix_cons_iff, List.cons_prefix_cons, ih hu.2]
    simp [hu.1]

theorem colons_space_infix_append (hu : ' ' ∉ u) (cs : List Char) :
    [':', ':', ' '] <:+: u ++ ' ' :: cs ↔ [':', ':'] <:+ u ∨ [':', ':', ' '] <:+: cs := by
  induction u with
  | nil => simp [List.infix_cons_iff, List.cons_prefix_cons]
  | cons c u ih =>
    rw [List.mem_cons, not_or] at hu
    have hstart : [':', ':', ' '] <+: c :: (u ++ ' ' :: cs) ↔ [':', ':'] = c :: u := by
      match u with
      | [] => simp [List.cons_prefix_cons]
      | [d] => simp [List.cons_prefix_cons]
      | d :: e :: u =>
        have he : ' ' ≠ e := by
          rintro rfl
          exact hu.2 (by simp)
        simp [List.cons_prefix_cons, he]
    rw [List.cons_append, List.infix_cons_iff, List.suffix_cons_iff, hstart, ih hu.2, or_assoc]

/-- What stands behind the text `p` has no space beside `::`, and no `::` at the start of a word. -/
structure ClosedUp (p cs : List Char) : Prop where
  before : ¬ [' ', ':', ':'] <:+: cs
  after : ¬ [':', ':', ' '] <:+: p ++ cs
  start : p = [] → ¬ [':', ':'] <+: cs

section

variable {p : List Char} (hp : ' ' ∉ p) (hu : ' ' ∉ u)
include hu

theorem closedUp_append (hne : u ≠ []) (cs : List Char) :
    ClosedUp p (u ++ cs) ↔ (p = [] → ¬ [':', ':'] <+: u ++ cs) ∧ ClosedUp (p ++ u) cs := by
  constructor
  · rintro ⟨hbefore, hafter, hstart⟩
    rw [space_colons_infix_append hu] at hbefore
    rw [← List.append_assoc] at hafter
    exact ⟨hstart, hbefore, hafter, fun h => absurd h (List.append_ne_nil_of_right_ne_nil p hne)⟩
  · rintro ⟨hstart, hbefore, hafter, -⟩
    rw [List.append_assoc] at hafter
    exact ⟨(space_colons_infix_append hu cs).not.mpr hbefore, hafter, hstart⟩

include hp

theorem closedUp_space (hstart : p = [] → ¬ [':', ':'] <+: u) (cs : List Char) :
    ClosedUp p (u ++ ' ' :: cs) ↔ ¬ [':', ':'] <:+ p ++ u ∧ ClosedUp [] cs := by
  have hpu : ' ' ∉ p ++ u := by simp [hp, hu]
  have hbefore : [' ', ':', ':'] <:+: u ++ ' ' :: cs ↔
      [':', ':'] <+: cs ∨ [' ', ':', ':'] <:+: cs := by
    rw [space_colons_infix_append hu, List.infix_cons_iff, List.cons_prefix_cons]
    simp
  have hafter : [':', ':', ' '] <:+: p ++ (u ++ ' ' :: cs) ↔
      [':', ':'] <:+ p ++ u ∨ [':', ':', ' '] <:+: cs := by
    rw [← List.append_assoc, colons_space_infix_append hpu]
  constructor
  · rintro ⟨h, h', -⟩
    obtain ⟨hcolons, h⟩ := not_or.mp (hbefore.not.mp h)
    obtain ⟨hlast, h'⟩ := not_or.mp (hafter.not.mp h')
    exact ⟨hlast, h, h', fun _ => hcolons⟩
  · rintro ⟨hlast, h, h', hcolons⟩
    refine ⟨hbefore.not.mpr (not_or.mpr ⟨hcolons rfl, h⟩), hafter.not.mpr (not_or.mpr ⟨hlast, h'⟩), ?_⟩
    intro hnil
    rw [colons_prefix_append_space]
    exact hstart hnil

end

theorem closedUp_of_isWord {p : List Char} (hp : ' ' ∉ p) (hu : ' ' ∉ u)
    (hstart : p = [] → ¬ [':', ':'] <+: u) : ClosedUp p u := by
  have hpu : ' ' ∉ p ++ u := by simp [hp, hu]
  exact ⟨fun h => hu (h.subset (by simp)), fun h => hpu (h.subset (by simp)), hstart⟩

/-- What is written from the word `u` on, behind the text `p` of the words that `u` is glued to, is
closed up if and only if the colons from the word `a` before `u` on are even. -/
theorem closedUp_writeWords_iff {a p : List Char} (hp : ' ' ∉ p) (hu : IsWord u)
    (hws : ∀ w ∈ ws, IsWord w) (hglued : [':', ':'] <:+ a → [':', ':'] <:+ p)
    (hfree : ¬ [':', ':'] <:+ a → p = [] ∨ [':', ':'] <+: u) (hstart : p = [] → ¬ [':', ':'] <+: u) :
    ClosedUp p (writeWords isGlued (u :: ws)) ↔ EvenColons (a :: u :: ws) := by
  induction ws generalizing a p u with
  | nil =>
    exact ⟨fun _ => evenColons_of_length_le (Nat.le_refl 2),
      fun _ => closedUp_of_isWord hp hu.space_not_mem hstart⟩
  | cons v ws ih =>
    obtain ⟨hv, hws⟩ := List.forall_mem_cons.mp hws
    have hlone : u = [':'] → ¬ [':', ':'] <:+ u ∧ ¬ [':', ':'] <+: u := by
      rintro rfl
      decide
    have hpu : ' ' ∉ p ++ u := by simp [hp, hu.space_not_mem]
    rw [evenColons_cons, writeWords]
    by_cases hclosed : [':', ':'] <:+ u ∨ [':', ':'] <+: v
    · -- `v` goes on with the word that `u` belongs to
      have hrest : ClosedUp (p ++ u) (writeWords isGlued (v :: ws)) ↔ EvenColons (u :: v :: ws) :=
        ih hpu hv hws (fun h => (colons_suffix_append hu.ne_nil p).mpr (.inl h))
          (fun h => .inr (hclosed.resolve_left h))
          (fun h => absurd h (List.append_ne_nil_of_right_ne_nil p hu.ne_nil))
      simp only [isGlued, hclosed, decide_true, if_true, List.append_nil]
      rw [closedUp_append hu.space_not_mem hu.ne_nil, hrest]
      refine and_congr_left fun _ => ?_
      rw [colons_prefix_append hu.ne_nil]
      constructor
      · rintro hfirst rfl
        have hcolons : [':', ':'] <+: v := hclosed.resolve_left (hlone rfl).1
        have hnext : [':'] <+: writeWords isGlued (v :: ws) :=
          (List.prefix_append [':'] [':']).trans (hcolons.trans (prefix_writeWords _ v ws))
        refine ⟨fun _ => hcolons, fun _ => ?_⟩
        by_contra ha
        exact hfirst ((hfree ha).resolve_right (hlone rfl).2) (.inr ⟨rfl, hnext⟩)
      · rintro heven rfl (h | ⟨rfl, -⟩)
        · exact hstart rfl h
        · have hsuffix := hglued ((heven rfl).mpr (hclosed.resolve_left (hlone rfl).1))
          simp at hsuffix
    · -- a space stands between `u` and `v`
      obtain ⟨hu', hv'⟩ := not_or.mp hclosed
      have hrest : ClosedUp [] (writeWords isGlued (v :: ws)) ↔ EvenColons (u :: v :: ws) :=
        ih (by simp) hv hws (fun h => absurd h hu') (fun _ => .inl rfl) (fun _ => hv')
      simp only [isGlued, hclosed, decide_false, Bool.false_eq_true, if_false]
      rw [List.append_assoc, List.singleton_append, closedUp_space hp hu.space_not_mem hstart, hrest]
      refine and_congr_left fun _ => ?_
      rw [colons_suffix_append hu.ne_nil]
      simp only [hu', hv', false_or, iff_false]
      constructor
      · rintro hfirst rfl ha
        exact hfirst ⟨rfl, (List.suffix_append [':'] [':']).trans (hglued ha)⟩
      · rintro heven ⟨rfl, hlast⟩
        obtain rfl := (hfree (heven rfl)).resolve_right (hlone rfl).2
        simp at hlast

/-! ### Qualifiers -/

theorem not_isQualifier_of_mem (h : ':' ∈ w) : isQualifier w = false := by
  cases hq : isQualifier w with
  | false => rfl
  | true =>
    simp only [isQualifier, Bool.or_eq_true, beq_iff_eq] at hq
    rcases hq with rfl | rfl <;> simp at h

/-- No qualifier is written from the word `u` on, behind the text `p` of the words that `u` is glued to:
what is glued has colons in it. -/
theorem noQualifier_writeWords {p : List Char} (hword : IsWord (p ++ u))
    (hplain : isQualifier (p ++ u) = false) (hws : ∀ w ∈ ws, IsWord w ∧ isQualifier w = false) :
    ∀ w ∈ words (p ++ writeWords isGlued (u :: ws)), isQualifier w = false := by
  induction ws generalizing p u with
  | nil =>
    show ∀ w ∈ words (p ++ u), _
    rw [words_of_isWord hword]
    exact List.forall_mem_singleton.mpr hplain
  | cons v ws ih =>
    obtain ⟨⟨hv, hv'⟩, hws⟩ := List.forall_mem_cons.mp hws
    rw [writeWords, isGlued]
    by_cases hclosed : [':', ':'] <:+ u ∨ [':', ':'] <+: v
    · have hcolon : ':' ∈ p ++ u ++ v := by
        rcases hclosed with h | h <;> simp [h.subset List.mem_cons_self]
      simp only [hclosed, decide_true, if_true, List.append_nil]
      rw [← List.append_assoc]
      exact ih (hword.append hv) (not_isQualifier_of_mem hcolon) hws
    · simp only [hclosed, decide_false, Bool.false_eq_true, if_false]
      rw [List.append_assoc, List.singleton_append, ← List.append_assoc, words_append_cons hword rfl]
      exact List.forall_mem_cons.mpr ⟨hplain, ih (p := []) hv hv' hws⟩

theorem noQualifier_writeWords_iff (hw : IsWord w)
    (hws : ∀ v ∈ ws, IsWord v ∧ isQualifier v = false) :
    (∀ v ∈ words (writeWords isGlued (w :: ws)), isQualifier v = false) ↔
      (isQualifier w = true → ∃ v ∈ ws.head?, [':', ':'] <+: v) := by
  cases hq : isQualifier w with
  | false =>
    simp only [Bool.false_eq_true, false_implies, iff_true]
    exact noQualifier_writeWords (p := []) hw hq hws
  | true =>
    have hcolon : ':' ∉ w := fun h => Bool.false_ne_true ((not_isQualifier_of_mem h).symm.trans hq)
    simp only [true_implies]
    cases ws with
    | nil =>
      have hself : ¬ ∀ v ∈ words (writeWords isGlued [w]), isQualifier v = false := by
        intro hnone
        rw [hnone w (by rw [writeWords, words_of_isWord hw]; exact List.mem_cons_self)] at hq
        cases hq
      simp [hself]
    | cons v ws =>
      obtain ⟨⟨hv, -⟩, hrest⟩ := List.forall_mem_cons.mp hws
      simp only [List.head?_cons, Option.mem_some_iff, exists_eq_left']
      constructor
      · intro hnone
        by_contra hstart
        have hopen : ¬ ([':', ':'] <:+ w ∨ [':', ':'] <+: v) :=
          not_or.mpr ⟨fun h => hcolon (h.subset List.mem_cons_self), hstart⟩
        have hmem : w ∈ words (writeWords isGlued (w :: v :: ws)) := by
          rw [writeWords, isGlued]
          simp only [hopen, decide_false, Bool.false_eq_true, if_false]
          rw [List.append_assoc, List.singleton_append, words_append_cons hw rfl]
          exact List.mem_cons_self
        rw [hnone w hmem] at hq
        cases hq
      · intro hstart
        have hcolon' : ':' ∈ w ++ v := by simp [hstart.subset List.mem_cons_self]
        rw [writeWords, isGlued]
        simp only [hstart, or_true, decide_true, if_true, List.append_nil]
        exact noQualifier_writeWords (hw.append hv) (not_isQualifier_of_mem hcolon') hrest

/-! ### The condition -/

theorem wellSpelled_singleton (h : isQualifier w = false) : WellSpelled [w] where
  bare _ := rfl
  qualifier u hu hq := by
    obtain rfl := Option.some.inj hu
    rw [h] at hq
    cases hq
  colons := evenColons_of_length_le (Nat.le_refl 2)

/-- Behind a first word without characters there is a space or `::`. -/
theorem not_isNormal_of_bare (v : List Char) (ws : List (List Char)) :
    ¬ IsNormal (writeWords isGlued ([] :: v :: ws)) := by
  intro h
  have hnil : ¬ [':', ':'] <:+ ([] : List Char) := by decide
  rw [writeWords, isGlued] at h
  by_cases hstart : [':', ':'] <+: v
  · simp only [hstart, or_true, decide_true, if_true, List.nil_append] at h
    exact h.noColonsAtStart (hstart.trans (prefix_writeWords _ v ws))
  · simp only [hstart, hnil, or_false, decide_false, Bool.false_eq_true, if_false] at h
    exact Bool.noConfusion (h.noBlankAtStart ' ' rfl)

/-- Glued words are normal if and only if they are well spelled. -/
theorem isNormal_writeWords_iff (htail : ∀ w ∈ ws.tail, IsWord w ∧ isQualifier w = false)
    (hhead : ∀ w ∈ ws.head?, (∀ c ∈ w, isBlank c = false) ∧ ¬ [':', ':'] <+: w) :
    IsNormal (writeWords isGlued ws) ↔ WellSpelled ws := by
  have hempty : IsNormal [] := spellingChars_eq_self_iff.mp rfl
  cases ws with
  | nil =>
    refine ⟨fun _ => ⟨fun h => ?_, fun w hw => ?_, evenColons_of_length_le (by decide)⟩, fun _ => hempty⟩
    · cases h
    · cases hw
  | cons w ws =>
    obtain ⟨hblank, hstart⟩ := hhead w rfl
    have htail' : ∀ v ∈ ws, IsWord v := fun v hv => (htail v hv).1
    by_cases hne : w = []
    · subst hne
      cases ws with
      | nil => exact ⟨fun _ => wellSpelled_singleton rfl, fun _ => hempty⟩
      | cons v ws =>
        refine iff_of_false (not_isNormal_of_bare v ws) fun h => ?_
        cases h.bare rfl
    · have hw : IsWord w := ⟨hne, hblank⟩
      have hcolons : ClosedUp [] (writeWords isGlued (w :: ws)) ↔ EvenColons ([] :: w :: ws) :=
        closedUp_writeWords_iff (by simp) hw htail' (fun h => h) (fun _ => .inl rfl) (fun _ => hstart)
      have hqualifier := noQualifier_writeWords_iff hw htail
      constructor
      · intro h
        refine ⟨fun hnil => absurd (Option.some.inj hnil) hne, ?_, hcolons.mp ?_⟩
        · intro u hu
          obtain rfl := Option.some.inj hu
          exact hqualifier.mp h.noQualifier
        · exact ⟨h.noSpaceBeforeColons, h.noSpaceAfterColons, fun _ => h.noColonsAtStart⟩
      · intro h
        have hclosed := hcolons.mpr h.colons
        exact
          { toIsSpaced := isSpaced_writeWords _ hblank htail'
            noBlankAtStart := (blank_head?_writeWords hw _ ws).2
            noColonsAtStart := hclosed.start rfl
            noSpaceBeforeColons := hclosed.before
            noSpaceAfterColons := hclosed.after
            noQualifier := hqualifier.mpr (h.qualifier w rfl) }

/-- **Normalized spellings.** The spelling of any name has single spaces and none at its end. It has the
whole normal form exactly if another normalization leaves it alone, and that is so exactly if the words of
the name have no `::` and no colon in the wrong place. -/
theorem spelling_isNormal_iff (name : String) :
    IsSpaced (spelling name).toList ∧
    (IsNormal (spelling name).toList ↔ spelling (spelling name) = spelling name) ∧
    (IsNormal (spelling name).toList ↔ WellSpelled (nameWords name.toList)) := by
  have hspelling : ∀ name, (spelling name).toList = spellingChars name.toList :=
    fun name => String.toList_ofList
  have htail : ∀ w ∈ (nameWords name.toList).tail, IsWord w ∧ isQualifier w = false :=
    fun w hw => of_mem_tail_nameWords hw
  have hhead : ∀ w ∈ (nameWords name.toList).head?,
      (∀ c ∈ w, isBlank c = false) ∧ ¬ [':', ':'] <+: w := fun w hw =>
    ⟨blank_of_mem_nameWords (List.mem_of_mem_head? hw), not_colons_prefix_of_head?_nameWords hw⟩
  refine ⟨?_, ?_, ?_⟩
  · rw [hspelling, spellingChars_eq_writeWords]
    generalize nameWords name.toList = ws at htail hhead
    cases ws with
    | nil => exact .of_blank (List.forall_mem_nil _)
    | cons w ws => exact isSpaced_writeWords _ (hhead w rfl).1 fun v hv => (htail v hv).1
  · rw [← spellingChars_eq_self_iff, ← hspelling, String.toList_inj]
  · rw [hspelling, spellingChars_eq_writeWords]
    exact isNormal_writeWords_iff htail hhead

/-- Behind a `::` that stands alone at the start, a space is left over, which a second normalization drops.
Without it nothing is wrong with the same words. -/
theorem spelling_isNormal_iff_alone :
    ¬ IsNormal (spelling ":: std :: string").toList ∧
    spelling (spelling ":: std :: string") ≠ spelling ":: std :: string" ∧
    IsNormal (spelling "const std :: string").toList := by
  obtain ⟨-, hfixed, hwords⟩ := spelling_isNormal_iff ":: std :: string"
  have hnot : ¬ IsNormal (spelling ":: std :: string").toList := by
    rw [hwords]
    intro h
    cases h.bare rfl
  refine ⟨hnot, fun h => hnot (hfixed.mpr h), (spelling_isNormal_iff "const std :: string").2.2.mpr ?_⟩
  refine ⟨fun h => ?_, fun w hw hq => ?_, ?_⟩
  · cases h
  · obtain rfl := Option.some.inj hw
    cases hq
  · show EvenColons [[], ['s', 't', 'd'], [':', ':'], ['s', 't', 'r', 'i', 'n', 'g']]
    rw [evenColons_cons, evenColons_cons]
    exact ⟨by decide, by decide, evenColons_of_length_le (by decide)⟩

end ScriptExport.Text
