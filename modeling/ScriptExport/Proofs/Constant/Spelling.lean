import ScriptExport.Proofs.Constant.Expression
import ScriptExport.Proofs.Text.Ascii

/-!
# Texts and their lexemes

A text spells lexemes if it consists of them in order, with any blanks between them (`Spells`). Where
no two words are next to each other, the reader finds exactly those lexemes again, and it fails only
for a literal that is too large (`tokens_of_spells`). The prints of expressions are of that kind
(`Expr.separated_lexemes`).
-/

namespace ScriptExport.Constant

/-- The text consists of the lexemes and of blanks. -/
inductive Spells : List Lexeme → List Char → Prop where
  | nil : Spells [] []
  | blank {ls : List Lexeme} {cs : List Char} (c : Char) (hc : Text.isBlank c = true)
    (h : Spells ls cs) : Spells ls (c :: cs)
  | lexeme {ls : List Lexeme} {cs : List Char} (x : Lexeme) (h : Spells ls cs) :
    Spells (x :: ls) (x.text ++ cs)

/-! ## Characters -/

/-- The code points of blanks. -/
def blankRanges : List (ℕ × ℕ) :=
  [(9, 13), (0x20, 0x20), (0x85, 0x85), (0xA0, 0xA0), (0x1680, 0x1680), (0x2000, 0x200A),
    (0x2028, 0x2028), (0x2029, 0x2029), (0x202F, 0x202F), (0x205F, 0x205F), (0x3000, 0x3000)]

/-- The code points of the characters in literals and names. -/
def wordRanges : List (ℕ × ℕ) :=
  [(39, 39), (48, 58), (65, 90), (95, 95), (97, 122)] ++ Text.alphabeticRanges ++ Text.numericRanges

/-- Whether a word cannot go on with the character. -/
def endsWord (c : Char) : Bool :=
  !isNameChar c && !isLiteralChar c && c != ':'

variable {c : Char} {ls : List Lexeme}

theorem inRanges_of_isBlank (h : Text.isBlank c = true) :
    Text.inRanges blankRanges c.toNat = true := by
  simpa [Text.inRanges, blankRanges, Text.isBlank, Nat.le_antisymm_iff, and_comm, or_assoc] using h

theorem inRanges_of_endsWord (h : endsWord c = false) :
    Text.inRanges wordRanges c.toNat = true := by
  have hsplit : Text.inRanges wordRanges c.toNat =
      (Text.inRanges [(39, 39), (48, 58), (65, 90), (95, 95), (97, 122)] c.toNat ||
        Text.inRanges Text.alphabeticRanges c.toNat || Text.inRanges Text.numericRanges c.toNat) := by
    simp only [Text.inRanges, wordRanges, List.any_append]
  have hascii : Text.isAsciiAlnum c = true ∨ c = '_' ∨ c = '\'' ∨ c = ':' →
      Text.inRanges [(39, 39), (48, 58), (65, 90), (95, 95), (97, 122)] c.toNat = true := by
    intro hc
    have hn : (65 ≤ c.toNat ∧ c.toNat ≤ 90) ∨ (97 ≤ c.toNat ∧ c.toNat ≤ 122) ∨
        (48 ≤ c.toNat ∧ c.toNat ≤ 58) ∨ c.toNat = 95 ∨ c.toNat = 39 := by
      rcases hc with hc | rfl | rfl | rfl
      · simp only [Text.isAsciiAlnum, Bool.or_eq_true, Text.isAlpha_iff_toNat,
          Text.isDigit_iff_toNat] at hc
        omega
      · decide
      · decide
      · decide
    simp only [Text.inRanges, List.any_cons, List.any_nil, Bool.or_eq_true, Bool.and_eq_true,
      decide_eq_true_eq]
    omega
  rw [hsplit]
  simp only [endsWord, isNameChar, isLiteralChar, Text.isLetterOrDigit, Bool.and_eq_false_iff,
    Bool.not_eq_false', Bool.or_eq_true, Bool.and_eq_true, beq_iff_eq, bne_eq_false_iff_eq] at h ⊢
  tauto

theorem endsWord_of_isBlank (h : Text.isBlank c = true) : endsWord c = true := by
  have hapart : (wordRanges.all fun r => blankRanges.all fun b =>
      Nat.blt b.2 r.1 || Nat.blt r.2 b.1) = true := by decide +kernel
  cases hword : endsWord c with
  | true => rfl
  | false =>
    obtain ⟨r, hr, hle, hge⟩ := Text.inRanges_iff.mp (inRanges_of_endsWord hword)
    obtain ⟨b, hb, hle', hge'⟩ := Text.inRanges_iff.mp (inRanges_of_isBlank h)
    have hrb := List.all_eq_true.mp (List.all_eq_true.mp hapart r hr) b hb
    simp only [Bool.or_eq_true, Nat.blt_eq] at hrb
    omega

theorem isBlank_of_isNameChar (h : isNameChar c = true) : Text.isBlank c = false := by
  cases hblank : Text.isBlank c with
  | false => rfl
  | true =>
    have := endsWord_of_isBlank hblank
    simp [endsWord, h] at this

theorem isNameChar_of_isDigit (h : c.isDigit = true) : isNameChar c = true := by
  simp [isNameChar, Text.isLetterOrDigit, Text.isAsciiAlnum, h]

theorem isNameChar_of_isLetter (h : Text.isLetter c = true) : isNameChar c = true := by
  unfold Text.isLetter at h
  unfold isNameChar Text.isLetterOrDigit Text.isAsciiAlnum
  simp only [Bool.or_eq_true, Bool.and_eq_true] at h ⊢
  tauto

theorem isDigit_of_isLetter (h : Text.isLetter c = true) : c.isDigit = false := by
  cases hdigit : c.isDigit with
  | false => rfl
  | true =>
    have hn := Text.isDigit_iff_toNat.mp hdigit
    rcases Bool.or_eq_true_iff.mp h with halpha | htable
    · have := Text.isAlpha_iff_toNat.mp halpha
      omega
    · have := of_decide_eq_true (Bool.and_eq_true_iff.mp htable).1
      omega

namespace Mode

theorem start_blank (h : Text.isBlank c = true) : start c = .ok ([], between) := by
  unfold start
  rw [if_pos h]

theorem start_digit (h : c.isDigit = true) : start c = .ok ([], number [c]) := by
  unfold start
  rw [if_neg (by simp [isBlank_of_isNameChar (isNameChar_of_isDigit h)]), if_pos h]

theorem start_name (h : (Text.isLetter c || c == '_') = true) : start c = .ok ([], name [c]) := by
  have hname : isNameChar c = true := by
    rcases Bool.or_eq_true_iff.mp h with h | h
    · exact isNameChar_of_isLetter h
    · rw [beq_iff_eq.mp h]; decide
  have hdigit : c.isDigit = false := by
    rcases Bool.or_eq_true_iff.mp h with h | h
    · exact isDigit_of_isLetter h
    · rw [beq_iff_eq.mp h]; decide
  unfold start
  rw [if_neg (by simp [isBlank_of_isNameChar hname]), if_neg (by simp [hdigit]), if_pos h]

end Mode

/-! ## Reading a spelled text -/

/-- Reading a lexeme fails for a literal that is too large. -/
def Lexeme.read : Lexeme → Except EvalError Token
  | literal l => (readLiteral l.text).map .number
  | x => .ok x.token

/-- Whether the lexeme is a literal or a name. -/
def Lexeme.isWord : Lexeme → Bool
  | literal _ | name _ => true
  | _ => false

theorem scan_cons {mode next : Mode} {ts : List Token} (h : mode.step c = .ok (ts, next))
    (cs : List Char) : scan mode (c :: cs) = (scan next cs).map (ts ++ ·) := by
  rw [scan, h]
  rfl

theorem scan_cons_nil {mode next : Mode} (h : mode.step c = .ok ([], next)) (cs : List Char) :
    scan mode (c :: cs) = scan next cs := by
  rw [scan_cons h]
  cases scan next cs <;> rfl

theorem scan_number_append {w : List Char} (hw : ∀ c ∈ w, isLiteralChar c = true)
    (collected rest : List Char) :
    scan (.number collected) (w ++ rest) = scan (.number (w.reverse ++ collected)) rest := by
  induction w generalizing collected with
  | nil => rfl
  | cons c w ih =>
    obtain ⟨hc, hw⟩ := List.forall_mem_cons.mp hw
    have hstep : (Mode.number collected).step c = .ok ([], .number (c :: collected)) := by
      rw [Mode.step, if_pos hc]
    rw [List.cons_append, scan_cons_nil hstep, ih hw, List.reverse_cons, List.append_assoc]
    rfl

theorem scan_name_append {w : List Char} (hw : ∀ c ∈ w, isNameChar c = true)
    (collected rest : List Char) :
    scan (.name collected) (w ++ rest) = scan (.name (w.reverse ++ collected)) rest := by
  induction w generalizing collected with
  | nil => rfl
  | cons c w ih =>
    obtain ⟨hc, hw⟩ := List.forall_mem_cons.mp hw
    have hstep : (Mode.name collected).step c = .ok ([], .name (c :: collected)) := by
      rw [Mode.step, if_pos hc]
    rw [List.cons_append, scan_cons_nil hstep, ih hw, List.reverse_cons, List.append_assoc]
    rfl

theorem scan_name_colons (collected rest : List Char) :
    scan (.name collected) (':' :: ':' :: rest) = scan (.name (':' :: ':' :: collected)) rest := by
  have hfirst : (Mode.name collected).step ':' = .ok ([], .nameColon collected) := by
    rw [Mode.step, if_neg (by decide)]
    rfl
  have hsecond : (Mode.nameColon collected).step ':' = .ok ([], .name (':' :: ':' :: collected)) :=
    rfl
  rw [scan_cons_nil hfirst, scan_cons_nil hsecond]

/-- A qualified name is collected as a whole. -/
theorem scan_name_segments {ss : List (List Char)} (hss : ∀ s ∈ ss, ∀ c ∈ s, isNameChar c = true)
    (collected rest : List Char) :
    scan (.name collected) (Text.joinChars [':', ':'] ss ++ rest) =
      scan (.name ((Text.joinChars [':', ':'] ss).reverse ++ collected)) rest := by
  induction ss generalizing collected with
  | nil => rfl
  | cons s ss ih =>
    obtain ⟨hs, hss⟩ := List.forall_mem_cons.mp hss
    cases ss with
    | nil => exact scan_name_append hs collected rest
    | cons t ss =>
      rw [Text.joinChars_cons (List.cons_ne_nil t ss), List.append_assoc, List.append_assoc,
        scan_name_append hs]
      show scan _ (':' :: ':' :: (_ ++ rest)) = _
      rw [scan_name_colons, ih hss]
      simp

/-- A literal ends where no more of its characters follow. -/
theorem scan_number_end {rest : List Char} (hrest : ∀ c ∈ rest.head?, endsWord c = true)
    (collected : List Char) :
    scan (.number collected) rest = do
      let v ← readLiteral collected.reverse
      let ts ← scan .between rest
      return .number v :: ts := by
  cases rest with
  | nil =>
    show (readLiteral collected.reverse).map _ = _
    cases readLiteral collected.reverse <;> rfl
  | cons c rest =>
    have hc : isLiteralChar c = false := by
      have := hrest c rfl
      simp_all [endsWord]
    have hstep : (Mode.number collected).step c = do
        let v ← readLiteral collected.reverse
        let p ← Mode.start c
        return (.number v :: p.1, p.2) :=
      if_neg (by simp [hc])
    have hbetween : Mode.between.step c = Mode.start c := rfl
    rw [scan, scan, hstep, hbetween]
    cases readLiteral collected.reverse with
    | error e => rfl
    | ok v =>
      cases Mode.start c with
      | error e => rfl
      | ok p => cases hp : scan p.2 rest <;> simp [bind, Except.bind, pure, Except.pure, hp]

/-- A name ends where no character can be part of it. -/
theorem scan_name_end {rest : List Char} (hrest : ∀ c ∈ rest.head?, endsWord c = true)
    (collected : List Char) :
    scan (.name collected) rest = do
      let ts ← scan .between rest
      return nameToken collected :: ts := by
  cases rest with
  | nil => rfl
  | cons c rest =>
    have hc := hrest c rfl
    simp only [endsWord, Bool.and_eq_true, Bool.not_eq_true', bne_iff_ne] at hc
    obtain ⟨⟨hname, -⟩, hcolon⟩ := hc
    have hstep : (Mode.name collected).step c = do
        let p ← Mode.start c
        return (nameToken collected :: p.1, p.2) :=
      (if_neg (by simp [hname])).trans (if_neg (by simpa using hcolon))
    have hbetween : Mode.between.step c = Mode.start c := rfl
    rw [scan, scan, hstep, hbetween]
    cases Mode.start c with
    | error e => rfl
    | ok p => cases hp : scan p.2 rest <;> simp [bind, Except.bind, pure, Except.pure, hp]

theorem joinChars_cons_char (c : Char) (sep s : List Char) (ss : List (List Char)) :
    Text.joinChars sep ((c :: s) :: ss) = c :: Text.joinChars sep (s :: ss) := by
  cases ss <;> rfl

/-- The reader takes up a name to its end. -/
theorem scan_identifier (i : Identifier) (rest : List Char) :
    scan .between (i.text ++ rest) = scan (.name i.text.reverse) rest := by
  obtain ⟨segments, hchars, hstarts⟩ := i
  unfold Identifier.text
  dsimp only
  match segments, hchars, hstarts with
  | (c :: s) :: ss, hchars, hstarts =>
    have hstart : Mode.between.step c = .ok ([], .name [c]) := Mode.start_name hstarts
    have hsegments : ∀ t ∈ s :: ss, ∀ d ∈ t, isNameChar d = true := by
      intro t ht d hd
      rcases List.mem_cons.mp ht with rfl | ht
      · exact hchars (c :: t) List.mem_cons_self d (List.mem_cons_of_mem c hd)
      · exact hchars t (List.mem_cons_of_mem _ ht) d hd
    rw [joinChars_cons_char, List.cons_append, scan_cons_nil hstart, scan_name_segments hsegments,
      List.reverse_cons]
  | [] :: t :: ss, hchars, _ =>
    have hfirst : Mode.between.step ':' = .ok ([], .nameColon []) := rfl
    have hsecond : (Mode.nameColon []).step ':' = .ok ([], .name [':', ':']) := rfl
    have hsegments : ∀ s ∈ t :: ss, ∀ d ∈ s, isNameChar d = true := fun s hs =>
      hchars s (List.mem_cons_of_mem _ hs)
    rw [Text.joinChars_cons (List.cons_ne_nil t ss)]
    show scan .between (':' :: ':' :: (Text.joinChars [':', ':'] (t :: ss) ++ rest)) =
      scan (.name (':' :: ':' :: Text.joinChars [':', ':'] (t :: ss)).reverse) rest
    rw [scan_cons_nil hfirst, scan_cons_nil hsecond, scan_name_segments hsegments]
    simp
  | [[]], _, hstarts => cases hstarts
  | [], _, hstarts => cases hstarts

theorem scan_doubled {d : Char} (hd : Mode.between.step d = .ok ([], .shift d))
    (rest : List Char) :
    scan .between (d :: d :: rest) = do
      let ts ← scan .between rest
      return .infixed (if d == '<' then .shiftLeft else .shiftRight) :: ts := by
  have hstep : (Mode.shift d).step d =
      .ok ([.infixed (if d == '<' then .shiftLeft else .shiftRight)], .between) := by
    simp [Mode.step]
  rw [scan_cons_nil hd, scan_cons hstep]
  rfl

/-- A lexeme is read and the reader goes on behind it, if it is no word that could go on. -/
theorem scan_lexeme (x : Lexeme) {rest : List Char}
    (hrest : x.isWord = true → ∀ c ∈ rest.head?, endsWord c = true) :
    scan .between (x.text ++ rest) = do
      let t ← x.read
      let ts ← scan .between rest
      return t :: ts := by
  cases x with
  | literal l =>
    have hstart : Mode.between.step l.first = .ok ([], .number [l.first]) :=
      Mode.start_digit l.first_digit
    have htext : (l.rest.reverse ++ [l.first]).reverse = l.text := by simp [Literal.text]
    show scan .between (l.first :: (l.rest ++ rest)) = _
    rw [scan_cons_nil hstart, scan_number_append l.rest_chars, scan_number_end (hrest rfl), htext]
    show _ = do
      let t ← (readLiteral l.text).map Token.number
      let ts ← scan .between rest
      return t :: ts
    cases readLiteral l.text <;> rfl
  | name i =>
    have htoken : nameToken i.text.reverse = .name i.name := by
      rw [nameToken, List.reverse_reverse, Identifier.dropColons_text]
    show scan .between (i.text ++ rest) = _
    rw [scan_identifier, scan_name_end (hrest rfl), htoken]
    rfl
  | operator op =>
    cases op with
    | shiftLeft => exact scan_doubled rfl rest
    | shiftRight => exact scan_doubled rfl rest
    | _ => rfl
  | tilde => rfl
  | openParen => rfl
  | closeParen => rfl

/-- No two words are next to each other. -/
def Separated : List Lexeme → Prop
  | [] => True
  | x :: ls => (x.isWord = true → ∀ y ∈ ls.head?, y.isWord = false) ∧ Separated ls

theorem Spells.endsWord_head {cs : List Char} (h : Spells ls cs)
    (hls : ∀ y ∈ ls.head?, y.isWord = false) : ∀ c ∈ cs.head?, endsWord c = true := by
  cases h with
  | nil => intro c hc; cases hc
  | blank c hc _ =>
    intro d hd
    cases hd
    exact endsWord_of_isBlank hc
  | lexeme x _ =>
    have hx := hls x rfl
    intro c hc
    cases x with
    | literal l => cases hx
    | name i => cases hx
    | operator op =>
      cases op <;>
      · cases hc
        decide
    | tilde => cases hc; decide
    | openParen => cases hc; decide
    | closeParen => cases hc; decide

/-- A spelled text is read lexeme by lexeme. -/
theorem scan_of_spells {cs : List Char} (h : Spells ls cs) (hseparated : Separated ls) :
    scan .between cs = ls.mapM Lexeme.read := by
  induction h with
  | nil => rfl
  | blank c hc _ ih =>
    have hstart : Mode.between.step c = .ok ([], .between) := Mode.start_blank hc
    rw [scan_cons_nil hstart, ih hseparated]
  | lexeme x h ih =>
    rw [scan_lexeme x fun hx => h.endsWord_head (hseparated.1 hx), ih hseparated.2, List.mapM_cons]

theorem checked_natCast (n : ℕ) :
    checked n = if n < 2 ^ 63 then some (Int64.ofInt n) else none := by
  have hmin : Int64.minValue.toInt = -2 ^ 63 := rfl
  have hmax : Int64.maxValue.toInt = 2 ^ 63 - 1 := rfl
  unfold checked
  by_cases hn : n < 2 ^ 63
  · rw [if_pos hn, if_pos (by omega)]
  · rw [if_neg hn, if_neg (by omega)]

/-- A lexeme is read if it fits. -/
theorem toOption_read (x : Lexeme) : x.read.toOption = if x.fits then some x.token else none := by
  cases x with
  | literal l =>
    have hmap : ((readLiteral l.text).map Token.number).toOption =
        (readLiteral l.text).toOption.map Token.number := by
      cases readLiteral l.text <;> rfl
    show ((readLiteral l.text).map Token.number).toOption = _
    rw [hmap, Literal.readLiteral_text, checked_natCast]
    unfold Lexeme.fits Lexeme.token
    by_cases hfits : l.value < 2 ^ 63
    · rw [if_pos hfits, if_pos (by simpa using hfits)]
      rfl
    · rw [if_neg hfits, if_neg (by simpa using hfits)]
      rfl
  | _ => rfl

theorem toOption_mapM_read (ls : List Lexeme) :
    (ls.mapM Lexeme.read).toOption =
      if ls.all (·.fits) then some (ls.map (·.token)) else none := by
  induction ls with
  | nil => rfl
  | cons x ls ih =>
    rw [List.mapM_cons, toOption_bind, toOption_read, List.all_cons, List.map_cons]
    cases x.fits with
    | false => rfl
    | true =>
      show ((ls.mapM Lexeme.read) >>= fun ts => pure (x.token :: ts)).toOption = _
      rw [toOption_bind, ih, Bool.true_and]
      cases ls.all (·.fits) <;> rfl

/-- Reading a text gives the tokens of the lexemes that it spells, unless a literal is too large. -/
theorem tokens_of_spells {text : String} (h : Spells ls text.toList) (hseparated : Separated ls) :
    (tokens text).toOption = if ls.all (·.fits) then some (ls.map (·.token)) else none := by
  unfold tokens
  rw [scan_of_spells h hseparated, toOption_mapM_read]

/-! ## Prints -/

theorem isWord_lexeme (op : UnaryOp) : op.lexeme.isWord = false := by cases op <;> rfl

/-- A symbol stands apart from anything. -/
theorem Separated.cons {x : Lexeme} (hx : x.isWord = false) (hls : Separated ls) :
    Separated (x :: ls) := by
  refine ⟨fun h => ?_, hls⟩
  rw [hx] at h
  cases h

/-- A print stands apart from what follows if that starts with no word. -/
theorem Expr.separated_append (e : Expr) (n : ℕ) (hls : Separated ls)
    (hhead : ∀ y ∈ ls.head?, y.isWord = false) : Separated (e.lexemes n ++ ls) := by
  have hclose : ∀ {ls : List Lexeme}, ∀ y ∈ (Lexeme.closeParen :: ls).head?, y.isWord = false := by
    intro ls y hy
    cases hy
    rfl
  induction e generalizing n ls with
  | literal l => exact ⟨fun _ => hhead, hls⟩
  | name i => exact ⟨fun _ => hhead, hls⟩
  | unary op e ih => exact (ih tightest hls hhead).cons (isWord_lexeme op)
  | binary op l r ihl ihr =>
    have hbare : ∀ {ls : List Lexeme}, Separated ls → (∀ y ∈ ls.head?, y.isWord = false) →
        Separated (l.lexemes (precedence op) ++
          .operator op :: r.lexemes (precedence op + 1) ++ ls) := by
      intro ls hls hhead
      rw [List.append_assoc]
      refine ihl _ ((ihr _ hls hhead).cons rfl) ?_
      intro y hy
      cases hy
      rfl
    rw [lexemes]
    split
    · exact hbare hls hhead
    · rw [List.append_assoc, List.cons_append]
      exact (hbare (hls.cons rfl) hclose).cons rfl
  | paren e ih =>
    rw [lexemes, List.append_assoc, List.cons_append]
    exact (ih 0 (hls.cons rfl) hclose).cons rfl

theorem Expr.separated_lexemes (e : Expr) (n : ℕ) : Separated (e.lexemes n) := by
  have h : Separated (e.lexemes n ++ []) := e.separated_append n trivial (by simp)
  rwa [List.append_nil] at h

end ScriptExport.Constant
