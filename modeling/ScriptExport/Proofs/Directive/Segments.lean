import ScriptExport.Directive.Attribute

/-!
# Segments of an attribute payload

A payload is cut at the commas that stand outside of quotes and brackets. `Cursor` is what the cut
depends on at a place of the text: the quote that is open and the depth, the brackets opened so far less
those closed. `segments_cons` says once what one character does, and everything else follows from it:
the segments joined with commas are the payload (`joinChars_segments`), and a text without a separator is
a segment as a whole (`segments_append_comma`).

The depth is carried on over separators. Where a text closes more brackets than it opens, the depth
stays negative behind it, so that a comma separates although it is inside of brackets, namely of as many
as there were stray closing ones before, or fewer. `splitTopLevel_local_iff` states when this shows. The
depth has 32 bits: a text that is long enough makes it wrap, and then commas outside of all brackets may
fail to separate as well.
-/

namespace ScriptExport.Attribute

/-! ## Reading a payload -/

/-- A place in a payload: the number of brackets opened before it less the number of those closed, and
the quote that is open there. -/
structure Cursor where
  depth : Int32 := 0
  quote : Option Char := none

namespace Cursor

/-- The place behind one more character. -/
def step (p : Cursor) (c : Char) : Cursor :=
  match p.quote with
  | some q => { p with quote := if c = q then none else some q }
  | none =>
    if c = '"' ∨ c = '\'' then { p with quote := some c }
    else if isOpening c then { p with depth := p.depth + 1 }
    else if isClosing c then { p with depth := p.depth - 1 }
    else p

/-- The place behind a text. -/
def after (p : Cursor) (cs : List Char) : Cursor :=
  cs.foldl step p

/-- The character at this place ends a segment. -/
def Separates (p : Cursor) (c : Char) : Prop :=
  c = ',' ∧ p.quote = none ∧ p.depth ≤ 0

instance (p : Cursor) (c : Char) : Decidable (p.Separates c) :=
  inferInstanceAs (Decidable (_ ∧ _))

/-- The segments of the text from this place on. -/
def segments (p : Cursor) (cs : List Char) : List (List Char) :=
  topSegments p.depth p.quote cs

/-- No character of the text ends a segment. -/
def Unbroken (p : Cursor) : List Char → Prop
  | [] => True
  | c :: cs => ¬ p.Separates c ∧ (p.step c).Unbroken cs

/-- A comma of the text stands outside of quotes and at the depth `n`. -/
def CommaAt (p : Cursor) (cs : List Char) (n : Int32) : Prop :=
  ∃ before rest, cs = before ++ ',' :: rest ∧ p.after before = ⟨n, none⟩

variable {p : Cursor} {c : Char} {cs ds : List Char}

theorem step_comma (h : p.quote = none) : p.step ',' = p := by
  obtain ⟨depth, quote⟩ := p
  obtain rfl : quote = none := h
  rfl

/-- One character ends a segment or belongs to the first one. -/
theorem segments_cons (p : Cursor) (c : Char) (cs : List Char) :
    p.segments (c :: cs) =
      if p.Separates c then [] :: (p.step c).segments cs else onto c ((p.step c).segments cs) := by
  obtain ⟨depth, quote⟩ := p
  unfold segments Separates step
  cases quote with
  | some q => simp [topSegments]
  | none =>
    rw [topSegments]
    dsimp only
    split
    · next hquote => rw [if_neg (by rintro ⟨rfl, -⟩; simp at hquote)]
    · split
      · next hopen => rw [if_neg (by rintro ⟨rfl, -⟩; exact absurd hopen (by decide))]
      · split
        · next hclose => rw [if_neg (by rintro ⟨rfl, -⟩; exact absurd hclose (by decide))]
        · simp only [true_and]

/-- There is always a segment. -/
theorem segments_ne_nil (p : Cursor) (cs : List Char) : p.segments cs ≠ [] := by
  cases cs with
  | nil => exact List.cons_ne_nil _ _
  | cons c cs =>
    rw [segments_cons]
    split
    · exact List.cons_ne_nil _ _
    · unfold onto
      split <;> exact List.cons_ne_nil _ _

theorem segments_of_separates (h : p.Separates c) :
    p.segments (c :: cs) = [] :: p.segments cs := by
  obtain ⟨rfl, hquote, hdepth⟩ := h
  rw [segments_cons, if_pos ⟨rfl, hquote, hdepth⟩, step_comma hquote]

/-! ## Segments and the text they are cut from -/

theorem onto_eq_onto_iff {ss ts : List (List Char)} (hss : ss ≠ []) (hts : ts ≠ []) :
    onto c ss = onto c ts ↔ ss = ts := by
  obtain ⟨s, ss, rfl⟩ := List.exists_cons_of_ne_nil hss
  obtain ⟨t, ts, rfl⟩ := List.exists_cons_of_ne_nil hts
  simp [onto]

theorem foldr_onto (cs s : List Char) (ss : List (List Char)) :
    cs.foldr onto (s :: ss) = (cs ++ s) :: ss := by
  induction cs with
  | nil => rfl
  | cons c cs ih =>
    rw [List.foldr_cons, ih]
    rfl

theorem foldr_onto_inj {ss ts : List (List Char)} (hss : ss ≠ []) (hts : ts ≠ []) :
    cs.foldr onto ss = cs.foldr onto ts ↔ ss = ts := by
  obtain ⟨s, ss, rfl⟩ := List.exists_cons_of_ne_nil hss
  obtain ⟨t, ts, rfl⟩ := List.exists_cons_of_ne_nil hts
  simp [foldr_onto]

theorem nil_cons_ne_onto (ss ts : List (List Char)) : [] :: ss ≠ onto c ts := by
  cases ts <;> simp [onto]

theorem joinChars_onto {ss : List (List Char)} (hss : ss ≠ []) (sep : List Char) :
    Text.joinChars sep (onto c ss) = c :: Text.joinChars sep ss := by
  obtain ⟨s, ss, rfl⟩ := List.exists_cons_of_ne_nil hss
  cases ss <;> simp [onto, Text.joinChars]

/-- Nothing but the separating commas is lost. -/
theorem joinChars_segments (p : Cursor) (cs : List Char) :
    Text.joinChars [','] (p.segments cs) = cs := by
  induction cs generalizing p with
  | nil => rfl
  | cons c cs ih =>
    rw [segments_cons]
    split
    · next hsep =>
      rw [Text.joinChars_cons (segments_ne_nil _ _), ih, hsep.1]
      rfl
    · rw [joinChars_onto (segments_ne_nil _ _), ih]

theorem unbroken_of_not_mem (h : ',' ∉ cs) (p : Cursor) : p.Unbroken cs := by
  induction cs generalizing p with
  | nil => trivial
  | cons c cs ih =>
    rw [List.mem_cons, not_or] at h
    exact ⟨fun hsep => h.1 hsep.1.symm, ih h.2 _⟩

theorem unbroken_append : p.Unbroken (cs ++ ds) ↔ p.Unbroken cs ∧ (p.after cs).Unbroken ds := by
  induction cs generalizing p with
  | nil => exact (and_iff_right trivial).symm
  | cons c cs ih => exact (and_congr_right fun _ => ih).trans and_assoc.symm

theorem segments_of_unbroken (h : p.Unbroken cs) : p.segments cs = [cs] := by
  induction cs generalizing p with
  | nil => rfl
  | cons c cs ih => rw [segments_cons, if_neg h.1, ih h.2, onto]

/-- A text without a separator stands in front of the first segment of what follows. -/
theorem segments_append_of_unbroken (h : p.Unbroken cs) (ds : List Char) :
    p.segments (cs ++ ds) = cs.foldr onto ((p.after cs).segments ds) := by
  induction cs generalizing p with
  | nil => rfl
  | cons c cs ih =>
    rw [List.cons_append, segments_cons, if_neg h.1, ih h.2]
    rfl

/-- A text without a separator before a separating comma is the first segment. -/
theorem segments_append_comma (h : p.Unbroken cs) (hsep : (p.after cs).Separates ',')
    (ds : List Char) : p.segments (cs ++ ',' :: ds) = cs :: (p.after cs).segments ds := by
  rw [segments_append_of_unbroken h, segments_of_separates hsep, foldr_onto, List.append_nil]

/-! ## The same text at a smaller depth -/

/-- The place with `k` more brackets closed before it. -/
def lowered (p : Cursor) (k : Int32) : Cursor :=
  { p with depth := p.depth - k }

/-- A lowered cursor steps as the cursor does. -/
theorem step_lowered (p : Cursor) (k : Int32) (c : Char) :
    (p.lowered k).step c = (p.step c).lowered k := by
  obtain ⟨depth, quote⟩ := p
  unfold step lowered
  cases quote with
  | some q => rfl
  | none =>
    dsimp only
    split
    · rfl
    · split
      · show mk (depth - k + 1) none = mk (depth + 1 - k) none
        congr 1
        grind
      · split
        · show mk (depth - k - 1) none = mk (depth - 1 - k) none
          congr 1
          grind
        · rfl

/-- A comma comes first or later. -/
theorem commaAt_cons {n : Int32} :
    p.CommaAt (c :: cs) n ↔ (c = ',' ∧ p = ⟨n, none⟩) ∨ (p.step c).CommaAt cs n := by
  constructor
  · rintro ⟨before, rest, heq, hafter⟩
    cases before with
    | nil =>
      cases heq
      exact .inl ⟨rfl, hafter⟩
    | cons d before =>
      cases heq
      exact .inr ⟨before, rest, rfl, hafter⟩
  · rintro (⟨rfl, hp⟩ | ⟨before, rest, rfl, hafter⟩)
    · exact ⟨[], cs, rfl, hp⟩
    · exact ⟨c :: before, rest, rfl, hafter⟩

/-- At a depth that is smaller by `k` the segments are the same exactly if the same commas separate. -/
theorem segments_lowered_iff (p : Cursor) (k : Int32) (cs : List Char) :
    (p.lowered k).segments cs = p.segments cs ↔
      ∀ n, p.CommaAt cs n → (n - k ≤ 0 ↔ n ≤ 0) := by
  induction cs generalizing p with
  | nil =>
    refine iff_of_true rfl ?_
    rintro n ⟨before, rest, heq, -⟩
    exact absurd heq (List.append_ne_nil_of_right_ne_nil _ (List.cons_ne_nil _ _) ∘ Eq.symm)
  | cons c cs ih =>
    -- the depth at the first character counts only if this is a comma outside of quotes
    have hfirst : (∀ n, p.CommaAt (c :: cs) n → (n - k ≤ 0 ↔ n ≤ 0)) ↔
        (c = ',' ∧ p.quote = none → (p.depth - k ≤ 0 ↔ p.depth ≤ 0)) ∧
          ∀ n, (p.step c).CommaAt cs n → (n - k ≤ 0 ↔ n ≤ 0) := by
      obtain ⟨depth, quote⟩ := p
      simp only [commaAt_cons, or_imp, forall_and, mk.injEq]
      refine and_congr_left fun _ => ⟨fun h hc => h depth ⟨hc.1, rfl, hc.2⟩, ?_⟩
      rintro h n ⟨hc, rfl, hquote⟩
      exact h ⟨hc, hquote⟩
    rw [hfirst, ← ih (p.step c), segments_cons, segments_cons, step_lowered]
    -- where one of the two separates and the other one does not, a segment ends here or goes on
    by_cases hlow : (p.lowered k).Separates c
    · rw [if_pos hlow]
      by_cases hsep : p.Separates c
      · rw [if_pos hsep, List.cons_inj_right]
        exact (and_iff_right fun _ => iff_of_true hlow.2.2 hsep.2.2).symm
      · rw [if_neg hsep]
        refine iff_of_false (nil_cons_ne_onto _ _) fun h => hsep ?_
        exact ⟨hlow.1, hlow.2.1, (h.1 ⟨hlow.1, hlow.2.1⟩).mp hlow.2.2⟩
    · rw [if_neg hlow]
      by_cases hsep : p.Separates c
      · rw [if_pos hsep]
        refine iff_of_false (nil_cons_ne_onto _ _).symm fun h => hlow ?_
        exact ⟨hsep.1, hsep.2.1, (h.1 ⟨hsep.1, hsep.2.1⟩).mpr hsep.2.2⟩
      · rw [if_neg hsep, onto_eq_onto_iff (segments_ne_nil _ _) (segments_ne_nil _ _)]
        refine (and_iff_right fun hc => iff_of_false (fun h => hlow ?_) fun h => hsep ?_).symm
        · exact ⟨hc.1, hc.2, h⟩
        · exact ⟨hc.1, hc.2, h⟩

/-! ## Short texts -/

/-- One character changes the depth by at most one, unless it wraps. -/
theorem natAbs_depth_step (p : Cursor) (c : Char)
    (h : 2 * (p.depth.toInt.natAbs + 1) < Int32.size) :
    (p.step c).depth.toInt.natAbs ≤ p.depth.toInt.natAbs + 1 := by
  have hone : (1 : Int32).toInt = 1 := rfl
  obtain ⟨depth, quote⟩ := p
  simp only [Int32.size] at h
  unfold step
  cases quote with
  | some q => exact Nat.le_add_right _ _
  | none =>
    dsimp only
    split
    · exact Nat.le_add_right _ _
    · split
      · dsimp only
        rw [Int32.toInt_add, hone, Int.bmod_eq_of_le] <;> omega
      · split
        · dsimp only
          rw [Int32.toInt_sub, hone, Int.bmod_eq_of_le] <;> omega
        · exact Nat.le_add_right _ _

/-- The depth in a text with few enough characters is the number that it stands for. -/
theorem natAbs_depth_after (p : Cursor) (cs : List Char)
    (h : 2 * (p.depth.toInt.natAbs + cs.length) < Int32.size) :
    (p.after cs).depth.toInt.natAbs ≤ p.depth.toInt.natAbs + cs.length := by
  induction cs generalizing p with
  | nil => exact Nat.le_refl _
  | cons c cs ih =>
    rw [List.length_cons] at h ⊢
    have hstep := natAbs_depth_step p c (by omega)
    have hrest := ih (p.step c) (by omega)
    show ((p.step c).after cs).depth.toInt.natAbs ≤ _
    omega

end Cursor

/-! ## Segments that count -/

theorem splitTopLevel_prefix (cs : List Char) :
    splitTopLevel cs <+: Cursor.segments {} cs := by
  have hdrop : ∀ ss : List (List Char), dropTrailing ss <+: ss := by
    intro ss
    unfold dropTrailing
    split
    · split
      · exact List.dropLast_prefix ss
      · exact List.prefix_rfl
    · exact List.prefix_rfl
  refine List.IsPrefix.trans ?_ (hdrop _)
  unfold splitTopLevel
  change _ <+: dropTrailing (topSegments 0 none cs)
  split
  · next s hs =>
    rw [hs]
    split
    · exact List.nil_prefix
    · exact List.prefix_rfl
  · exact List.prefix_rfl

/-- If the last segment is not blank, all of them count. -/
theorem splitTopLevel_of_getLast? {cs last : List Char}
    (hlast : (Cursor.segments {} cs).getLast? = some last) (hblank : last.all Text.isBlank = false) :
    splitTopLevel cs = Cursor.segments {} cs := by
  have hdrop : dropTrailing (topSegments 0 none cs) = Cursor.segments {} cs := by
    change dropTrailing (Cursor.segments {} cs) = _
    unfold dropTrailing
    rw [hlast]
    simp [hblank]
  unfold splitTopLevel
  rw [hdrop]
  split
  · next s hs =>
    obtain rfl : s = last := by simpa [hs] using hlast
    rw [if_neg (by simp [hblank]), hs]
  · rfl

/-! ## Closing brackets that close nothing -/

/-- The brackets of a text: how many are left open, and how many closing ones found none open. -/
structure Brackets where
  unclosed : Nat := 0
  stray : Nat := 0

namespace Brackets

/-- The brackets of a text with one more character. -/
def step (b : Brackets) (c : Char) : Brackets :=
  if isOpening c then { b with unclosed := b.unclosed + 1 }
  else if isClosing c then
    match b.unclosed with
    | 0 => { b with stray := b.stray + 1 }
    | n + 1 => { b with unclosed := n }
  else b

/-- The brackets of a text. -/
def ofText (cs : List Char) : Brackets :=
  cs.foldl step {}

/-- The place behind a text with these brackets and without quotes. -/
def cursor (b : Brackets) : Cursor :=
  ⟨Int32.ofNat b.unclosed - Int32.ofNat b.stray, none⟩

theorem step_cursor (b : Brackets) {c : Char} (hdouble : c ≠ '"') (hsingle : c ≠ '\'') :
    b.cursor.step c = (b.step c).cursor := by
  obtain ⟨unclosed, stray⟩ := b
  unfold cursor Cursor.step step
  dsimp only
  rw [if_neg (not_or.mpr ⟨hdouble, hsingle⟩)]
  split
  · congr 1
    grind [Int32.ofNat_add]
  · split
    · cases unclosed with
      | zero =>
        congr 1
        grind [Int32.ofNat_add]
      | succ n =>
        congr 1
        grind [Int32.ofNat_add]
    · rfl

theorem after_cursor (b : Brackets) {cs : List Char} (hdouble : '"' ∉ cs) (hsingle : '\'' ∉ cs) :
    b.cursor.after cs = (cs.foldl step b).cursor := by
  induction cs generalizing b with
  | nil => rfl
  | cons c cs ih =>
    rw [List.mem_cons, not_or] at hdouble hsingle
    rw [List.foldl_cons, ← ih _ hdouble.2 hsingle.2,
      ← step_cursor b (Ne.symm hdouble.1) (Ne.symm hsingle.1)]
    rfl

theorem stray_foldl_le (b : Brackets) (cs : List Char) :
    (cs.foldl step b).stray ≤ b.stray + cs.length := by
  induction cs generalizing b with
  | nil => exact Nat.le_refl _
  | cons c cs ih =>
    have hstep : (b.step c).stray ≤ b.stray + 1 := by
      unfold step
      split
      · exact Nat.le_succ _
      · split
        · split
          · exact Nat.le_refl _
          · exact Nat.le_succ _
        · exact Nat.le_succ _
    have hrest := ih (b.step c)
    rw [List.foldl_cons, List.length_cons]
    omega

end Brackets

section Local

variable {a : List Char} (hcomma : ',' ∉ a) (hdouble : '"' ∉ a) (hsingle : '\'' ∉ a)
  (hclosed : (Brackets.ofText a).unclosed = 0)

include hcomma hdouble hsingle hclosed

/-- Behind a text that leaves no bracket open, everything is read as if the brackets that the text closes
too many were missing. -/
theorem segments_append_closed (b : List Char) :
    Cursor.segments {} (a ++ b) =
      a.foldr onto ((Cursor.lowered {} (Int32.ofNat (Brackets.ofText a).stray)).segments b) := by
  have hafter : Cursor.after {} a = Cursor.lowered {} (Int32.ofNat (Brackets.ofText a).stray) := by
    refine (Brackets.after_cursor {} hdouble hsingle).trans ?_
    change (Brackets.ofText a).cursor = _
    unfold Brackets.cursor Cursor.lowered
    rw [hclosed]
    rfl
  rw [Cursor.segments_append_of_unbroken (Cursor.unbroken_of_not_mem hcomma {}), hafter]

/-- Such a text is the first segment and leaves the other ones as they are exactly if the same commas
separate behind it, the one after it among them. -/
theorem segments_local_iff (b : List Char) :
    Cursor.segments {} (a ++ ',' :: b) = a :: Cursor.segments {} b ↔
      ∀ n, Cursor.CommaAt {} (',' :: b) n →
        (n - Int32.ofNat (Brackets.ofText a).stray ≤ 0 ↔ n ≤ 0) := by
  have hsplit : Cursor.segments {} (',' :: b) = [] :: Cursor.segments {} b :=
    Cursor.segments_of_separates ⟨rfl, rfl, Int32.le_refl 0⟩
  have hfirst : a :: Cursor.segments {} b = a.foldr onto (Cursor.segments {} (',' :: b)) := by
    rw [hsplit, Cursor.foldr_onto, List.append_nil]
  rw [segments_append_closed hcomma hdouble hsingle hclosed, hfirst,
    Cursor.foldr_onto_inj (Cursor.segments_ne_nil _ _) (Cursor.segments_ne_nil _ _),
    Cursor.segments_lowered_iff]

end Local

/-- In short texts a comma separates behind `k` stray brackets as it does alone, unless it is inside of
some brackets, but of no more than `k`. -/
theorem sub_le_zero_iff {n : Int32} {k : Nat} (h : 2 * (k + n.toInt.natAbs) < Int32.size) :
    (n - Int32.ofNat k ≤ 0 ↔ n ≤ 0) ↔ n ≤ 0 ∨ Int32.ofNat k < n := by
  simp only [Int32.size] at h
  have hk : (Int32.ofNat k).toInt = k := Int32.toInt_ofNat_of_lt (by omega)
  have hzero : (0 : Int32).toInt = 0 := rfl
  rw [Int32.le_iff_toInt_le, Int32.le_iff_toInt_le, Int32.lt_iff_toInt_lt, Int32.toInt_sub, hk, hzero,
    Int.bmod_eq_of_le] <;> omega

/-- For a text `a` without commas and quotes that leaves no bracket open, and a payload `b` whose last
segment is not blank: the segments of `a,b` are `a` and the segments of `b` exactly if the comma after
`a` and those of `b` outside of quotes separate at their depths less the number of stray closing brackets
of `a` as they do at their depths. In texts that are too short to make the depth wrap this means that no
comma of `b` outside of quotes is inside of some brackets, but of no more than `a` has stray closing
ones. -/
theorem splitTopLevel_local_iff {a b last : List Char} (hcomma : ',' ∉ a) (hdouble : '"' ∉ a)
    (hsingle : '\'' ∉ a) (hclosed : (Brackets.ofText a).unclosed = 0)
    (hlast : (topSegments 0 none b).getLast? = some last) (hblank : last.all Text.isBlank = false) :
    (splitTopLevel (a ++ ',' :: b) = a :: splitTopLevel b ↔
      ∀ n, Cursor.CommaAt {} (',' :: b) n →
        (n - Int32.ofNat (Brackets.ofText a).stray ≤ 0 ↔ n ≤ 0)) ∧
    (2 * (a.length + b.length) < Int32.size →
      (splitTopLevel (a ++ ',' :: b) = a :: splitTopLevel b ↔
        ∀ n, Cursor.CommaAt {} b n → n ≤ 0 ∨ Int32.ofNat (Brackets.ofText a).stray < n)) := by
  have hlocal : splitTopLevel (a ++ ',' :: b) = a :: splitTopLevel b ↔
      Cursor.segments {} (a ++ ',' :: b) = a :: Cursor.segments {} b := by
    rw [splitTopLevel_of_getLast? hlast hblank]
    constructor
    · intro heq
      -- all that can be missing at the end is a blank segment, and then a comma would be missing too
      have hstart := splitTopLevel_prefix (a ++ ',' :: b)
      rw [heq] at hstart
      obtain ⟨missing, hmissing⟩ := hstart
      cases missing with
      | nil => rw [← hmissing, List.append_nil]
      | cons s missing =>
        have hjoin := congrArg (Text.joinChars [',']) hmissing
        rw [Text.joinChars_append (List.cons_ne_nil a _) (List.cons_ne_nil s missing),
          Text.joinChars_cons (Cursor.segments_ne_nil {} b), Cursor.joinChars_segments,
          Cursor.joinChars_segments] at hjoin
        have hlength := congrArg List.length hjoin
        simp at hlength
    · intro heq
      have hlast' : (Cursor.segments {} (a ++ ',' :: b)).getLast? = some last := by
        rw [heq, List.getLast?_cons_of_ne_nil (Cursor.segments_ne_nil {} b)]
        exact hlast
      rw [splitTopLevel_of_getLast? hlast' hblank, heq]
  rw [hlocal, segments_local_iff hcomma hdouble hsingle hclosed]
  refine ⟨Iff.rfl, fun hshort => ?_⟩
  have hstray : (Brackets.ofText a).stray ≤ 0 + a.length := Brackets.stray_foldl_le {} a
  have hdepth : ∀ n, Cursor.CommaAt {} b n →
      2 * ((Brackets.ofText a).stray + n.toInt.natAbs) < Int32.size := by
    rintro n ⟨before, rest, rfl, hafter⟩
    rw [List.length_append] at hshort
    have hbound : (Cursor.after {} before).depth.toInt.natAbs ≤ 0 + before.length :=
      Cursor.natAbs_depth_after {} before (show 2 * (0 + before.length) < Int32.size by omega)
    rw [hafter] at hbound
    dsimp only at hbound
    omega
  constructor
  · intro h n hn
    exact (sub_le_zero_iff (hdepth n hn)).mp (h n (Cursor.commaAt_cons.mpr (.inr hn)))
  · intro h n hn
    rcases Cursor.commaAt_cons.mp hn with ⟨-, hp⟩ | hn
    · obtain rfl : (0 : Int32) = n := congrArg Cursor.depth hp
      have hzero : 2 * ((Brackets.ofText a).stray + 0) < Int32.size := by omega
      exact (sub_le_zero_iff hzero).mpr (.inl (Int32.le_refl 0))
    · exact (sub_le_zero_iff (hdepth n hn)).mpr (h n hn)

/-- Behind `f->g` the comma of `t=<x,y>` separates and that of `t=<<x,y>>` does not. -/
theorem splitTopLevel_local_iff_arrow :
    splitTopLevel (['f', '-', '>', 'g'] ++ ',' :: ['t', '=', '<', 'x', ',', 'y', '>']) ≠
        ['f', '-', '>', 'g'] :: splitTopLevel ['t', '=', '<', 'x', ',', 'y', '>'] ∧
      ∀ n, Cursor.CommaAt {} ['t', '=', '<', '<', 'x', ',', 'y', '>', '>'] n → n ≤ 0 ∨ 1 < n := by
  constructor
  · intro hlocal
    have hclear := ((splitTopLevel_local_iff (by decide) (by decide) (by decide) rfl rfl rfl).2
      (by decide)).mp hlocal
    have hcomma := hclear 1 ⟨['t', '=', '<', 'x'], ['y', '>'], rfl, rfl⟩
    exact absurd hcomma (by decide)
  · exact ((splitTopLevel_local_iff (a := ['f', '-', '>', 'g']) (by decide) (by decide) (by decide) rfl
      rfl rfl).2 (by decide)).mp (by decide)

end ScriptExport.Attribute
