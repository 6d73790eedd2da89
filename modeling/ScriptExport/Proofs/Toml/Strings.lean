import ScriptExport.Proofs.Text.Ascii
import ScriptExport.Toml.Printer
import ScriptExport.Toml.Token

/-!
# Strings and keys in TOML text

Each form in which a text is written as a string gives one token with the text. `Scans` says which tokens
a piece of text gives between two modes of the scanner. The end of a word, of an empty string and of a
string over several lines shows only at the next character, so `Spells` speaks of a piece of text
together with the character after it.

In a string with escapes every character is written as a group (`Group`): the scanner stays inside the
string, and the decoder takes the group for the character.
-/

namespace ScriptExport.Toml

/-! ## Pieces of text -/

/-- From one mode to the other the text gives the tokens, whatever follows. -/
def Scans (m : Mode) (cs : List Char) (ts : List Token) (n : Mode) : Prop :=
  ∀ rest, scan? m (cs ++ rest) = (scan? n rest).map (ts ++ ·)

/-- Between tokens the text gives the token, if the character comes after it. -/
def Spells (cs : List Char) (t : Token) (c : Char) : Prop :=
  ∀ last rest, scan? (.between last) (cs ++ c :: rest) =
    (scan? (.between ' ') (c :: rest)).map (t :: ·)

namespace Scans

variable {l m n : Mode} {cs ds : List Char} {ts us : List Token} {c : Char}

theorem refl (m : Mode) : Scans m [] [] m := by
  intro rest
  simp

theorem trans (h : Scans l cs ts m) (h' : Scans m ds us n) : Scans l (cs ++ ds) (ts ++ us) n := by
  intro rest
  rw [List.append_assoc, h, h', Option.map_map]
  congr 1
  funext vs
  simp

theorem cons (h : m.step c = some (ts, n)) (h' : Scans n cs us l) :
    Scans m (c :: cs) (ts ++ us) l := by
  intro rest
  rw [List.cons_append, scan?, h]
  simp only [Option.bind_eq_bind, Option.bind_some]
  rw [h' rest]
  cases scan? l rest <;> simp

theorem step (h : m.step c = some (ts, n)) : Scans m [c] ts n := by
  have hstep := cons h (.refl n)
  rwa [List.append_nil] at hstep

/-- A character that is only collected. -/
theorem collect (h : m.step c = some ([], n)) (h' : Scans n cs us l) : Scans m (c :: cs) us l :=
  cons h h'

end Scans

/-- What comes before a character does not change what becomes of it. -/
theorem start_eq (before : List Token) (last c : Char) :
    Mode.start before last c = (Mode.start [] last c).map fun p => (before ++ p.1, p.2) := by
  unfold Mode.start
  split; · simp
  split; · simp
  split; · simp
  split; · simp
  split; · simp
  split; · simp
  cases punctuation? last c <;> simp

/-- Only a bracket changes what the character after it is. -/
theorem start_after {last : Char} (hopen : last ≠ '[') (hclose : last ≠ ']') (before : List Token)
    (c : Char) : Mode.start before last c = Mode.start before ' ' c := by
  have hpunctuation : punctuation? last c = punctuation? ' ' c := by
    unfold punctuation?
    split <;> first | rfl | simp [hopen, hclose]
  unfold Mode.start
  rw [hpunctuation]

variable {c : Char} {cs collected body : List Char} {quotes : Nat}

/-- A token that is complete with the next character. -/
theorem scan?_pending {m : Mode} {t : Token} (h : m.step c = Mode.start [t] ' ' c)
    (rest : List Char) : scan? m (c :: rest) = (scan? (.between ' ') (c :: rest)).map (t :: ·) := by
  rw [scan?, scan?, h, start_eq]
  simp only [Mode.step]
  cases Mode.start [] ' ' c with
  | none => rfl
  | some p => cases h : scan? p.2 rest <;> simp [h]

theorem Spells.of_closed {t : Token} {q : Char} (hopen : q ≠ '[') (hclose : q ≠ ']')
    (h : ∀ last, Scans (.between last) cs [t] (.between q)) : Spells cs t c := by
  intro last rest
  have hnext : scan? (.between q) (c :: rest) = scan? (.between ' ') (c :: rest) := by
    rw [scan?, scan?]
    simp only [Mode.step, start_after hopen hclose]
  rw [h last, hnext]
  rfl

theorem Spells.of_pending {t : Token} {m : Mode} (h : ∀ last, Scans (.between last) cs [] m)
    (hm : m.step c = Mode.start [t] ' ' c) : Spells cs t c := by
  intro last rest
  rw [h last, scan?_pending hm, Option.map_map]
  rfl

/-! ## Words -/

section Words

variable {w : List Char}

theorem scans_word (hw : ∀ d ∈ w, Mode.endsWord d = false) (collected : List Char) :
    Scans (.word collected) w [] (.word (w.reverse ++ collected)) := by
  induction w generalizing collected with
  | nil => exact .refl _
  | cons d w ih =>
    have hd := hw d List.mem_cons_self
    have hspace : d ≠ ' ' := by
      rintro rfl
      cases hd
    have hrest := ih (fun e he => hw e (List.mem_cons_of_mem d he)) (d :: collected)
    rw [List.reverse_cons, List.append_assoc]
    exact .collect (by simp [Mode.step, hd, hspace]) hrest

theorem start_word {d : Char} (hd : Mode.endsWord d = false) (hcontrol : isControl d = false)
    (last : Char) : Mode.start [] last d = some ([], .word [d]) := by
  simp only [Mode.endsWord, Bool.or_eq_false_iff, beq_eq_false_iff_ne] at hd
  obtain ⟨⟨⟨⟨⟨⟨⟨hspace, htab⟩, hline⟩, hreturn⟩, hhash⟩, hquote⟩, hsingle⟩, hpunctuation⟩ := hd
  have hnone : punctuation? last d = none := by
    unfold punctuation? at hpunctuation ⊢
    split <;> first | rfl | cases hpunctuation
  simp [Mode.start, hspace, htab, hline, hreturn, hhash, hquote, hsingle, hcontrol, hnone]

theorem scans_wholeWord (hne : w ≠ []) (hw : ∀ d ∈ w, Mode.endsWord d = false)
    (hcontrol : ∀ d ∈ w, isControl d = false) (last : Char) :
    Scans (.between last) w [] (.word w.reverse) := by
  obtain ⟨d, w, rfl⟩ := List.exists_cons_of_ne_nil hne
  have hd := start_word (hw d List.mem_cons_self) (hcontrol d List.mem_cons_self) last
  rw [List.reverse_cons]
  exact .collect hd (scans_word (fun e he => hw e (List.mem_cons_of_mem d he)) [d])

theorem spells_word (hne : w ≠ []) (hw : ∀ d ∈ w, Mode.endsWord d = false)
    (hcontrol : ∀ d ∈ w, isControl d = false) (hc : Mode.endsWord c = true) (hspace : c ≠ ' ') :
    Spells w (.word w) c := by
  refine .of_pending (scans_wholeWord hne hw hcontrol) ?_
  simp [Mode.step, hc, hspace]

end Words

/-! ## Groups -/

/-- The characters `g` stand for `c` in a string with escapes. -/
structure Group (c : Char) (g : List Char) : Prop where
  head : ∃ d ds, g = d :: ds ∧ d ≠ '"'
  /-- On one line the scanner stays inside the string, -/
  single : ∀ collected, Scans (.single '"' collected) g [] (.single '"' (g.reverse ++ collected))
  /-- and so it does over several lines, where quotes may stand before the group. -/
  multi : ∀ collected quotes, quotes ≤ 2 → Scans (.multi '"' collected quotes) g []
    (.multi '"' (g.reverse ++ (List.replicate quotes '"' ++ collected)) 0)
  decode : ∀ multiline done, g.foldlM (decodeStep multiline) (.plain, done) =
    some (.plain, c :: done)

theorem isControl_of_needsEscape (h : needsEscape c = false) (hline : c ≠ '\n') :
    isControl c = false := by
  unfold needsEscape at h
  unfold isControl
  simp_all

/-- A carriage return has to be escaped. -/
theorem ne_return_of_needsEscape (h : needsEscape c = false) : c ≠ '\r' := by
  rintro rfl
  cases h

theorem takePlain_self (h : needsEscape c = false) (hline : c ≠ '\n') (multiline : Bool)
    (done : List Char) : takePlain multiline done c = some (.plain, c :: done) := by
  simp [takePlain, hline, ne_return_of_needsEscape h, isControl_of_needsEscape h hline]

/-- Most characters stand for themselves. -/
theorem group_self (h : needsEscape c = false) (hline : c ≠ '\n') (hquote : c ≠ '"')
    (hback : c ≠ '\\') : Group c [c] where
  head := ⟨c, [], rfl, hquote⟩
  single collected := .step (by simp [Mode.step, hquote, hline, hback])
  multi collected quotes hquotes := by
    have hfew : ¬ 3 ≤ quotes := by omega
    exact .step (by simp [Mode.step, hquote, hfew, hback])
  decode multiline done := by
    simp [decodeStep, hback, takePlain_self h hline]

theorem group_escape {e : Char} (he : escape? e = some c) : Group c ['\\', e] where
  head := ⟨'\\', [e], rfl, by decide⟩
  single collected := by
    have hline : e ≠ '\n' := by
      rintro rfl
      cases he
    exact .collect (by simp [Mode.step]; rfl) (.step (by simp [Mode.step, hline]))
  multi collected quotes hquotes := by
    have hfew : ¬ 3 ≤ quotes := by omega
    exact .collect (by simp [Mode.step, hfew]; rfl) (.step (by simp [Mode.step]))
  decode multiline done := by
    simp [decodeStep, he]

theorem digitValue?_upperHexDigit : ∀ d < 16, Text.digitValue? 16 (upperHexDigit d) = some d := by
  decide

theorem upperHexDigit_ne : ∀ d < 16, upperHexDigit d ≠ '"' ∧ upperHexDigit d ≠ '\\' ∧
    upperHexDigit d ≠ '\n' := by
  decide

theorem character?_toNat (c : Char) : character? c.toNat = some c := by
  unfold character?
  rw [dif_pos (show c.toNat.isValidChar from c.valid)]
  rfl

/-- A code that four digits write. -/
theorem group_code (hc : c.toNat < 256) :
    Group c ['\\', 'u', '0', '0', upperHexDigit (c.toNat / 16), upperHexDigit (c.toNat % 16)] := by
  obtain ⟨hhigh, hhigh', hhigh''⟩ := upperHexDigit_ne (c.toNat / 16) (by omega)
  obtain ⟨hlow, hlow', hlow''⟩ := upperHexDigit_ne (c.toNat % 16) (by omega)
  have hcode : 16 * (c.toNat / 16) + c.toNat % 16 = c.toNat := by omega
  constructor
  case head => exact ⟨_, _, rfl, by decide⟩
  case single =>
    intro collected rest
    simp [scan?, Mode.step, hhigh, hhigh', hhigh'', hlow, hlow', hlow'']
  case multi =>
    intro collected quotes hquotes rest
    have hfew : ¬ 3 ≤ quotes := by omega
    simp [scan?, Mode.step, hhigh, hhigh', hlow, hlow', hfew]
  case decode =>
    intro multiline done
    have hzero : Text.digitValue? 16 '0' = some 0 := by decide
    simp [decodeStep, escape?, codeLength?, hzero, digitValue?_upperHexDigit (c.toNat / 16) (by omega),
      digitValue?_upperHexDigit (c.toNat % 16) (by omega), hcode, character?_toNat]

/-- The form of a character other than a quote or a line break. -/
theorem group_escapedChar (hline : c ≠ '\n') (hquote : c ≠ '"') : Group c (escapedChar c) := by
  unfold escapedChar
  split
  · exact group_escape rfl
  · exact group_escape rfl
  · exact group_escape rfl
  · exact group_escape rfl
  · exact group_escape rfl
  · next hback _ _ _ _ =>
    split
    · next hescape =>
      refine group_code ?_
      simp only [needsEscape, Bool.or_eq_true, Bool.and_eq_true, decide_eq_true_eq, beq_iff_eq]
        at hescape
      omega
    · next hplain => exact group_self (by simpa using hplain) hline hquote hback

theorem group_basic (c : Char) : Group c
    (if c = '"' then ['\\', '"'] else if c = '\n' then ['\\', 'n'] else escapedChar c) := by
  split
  · next hquote =>
    subst hquote
    exact group_escape rfl
  · next hquote =>
    split
    · next hline =>
      subst hline
      exact group_escape rfl
    · next hline => exact group_escapedChar hline hquote

/-! ## Strings on one line -/

section Grouped

variable {form : Char → List Char}

theorem scans_groups (h : ∀ c ∈ cs, Group c (form c)) (collected : List Char) :
    Scans (.single '"' collected) (cs.flatMap form) []
      (.single '"' ((cs.flatMap form).reverse ++ collected)) := by
  induction cs generalizing collected with
  | nil => exact .refl _
  | cons c cs ih =>
    have hhead := (h c List.mem_cons_self).single collected
    have hrest := ih (fun d hd => h d (List.mem_cons_of_mem c hd)) ((form c).reverse ++ collected)
    have hall := hhead.trans hrest
    rw [List.flatMap_cons, List.reverse_append, List.append_assoc]
    exact hall

theorem foldlM_groups (h : ∀ c ∈ cs, Group c (form c)) (multiline : Bool) (done : List Char) :
    (cs.flatMap form).foldlM (decodeStep multiline) (.plain, done) =
      some (.plain, cs.reverse ++ done) := by
  induction cs generalizing done with
  | nil => rfl
  | cons c cs ih =>
    rw [List.flatMap_cons, List.foldlM_append, (h c List.mem_cons_self).decode]
    refine (ih (fun d hd => h d (List.mem_cons_of_mem c hd)) _).trans ?_
    simp

theorem decode?_groups (h : ∀ c ∈ cs, Group c (form c)) (multiline : Bool) :
    decode? multiline (cs.flatMap form) = some (String.ofList cs) := by
  unfold decode?
  rw [foldlM_groups h]
  simp

/-- After its first quote a string goes on as it does later, unless it ends at once. -/
theorem scan?_opening {q : Char} (hc : c ≠ q) (rest : List Char) :
    scan? (.opening q) (c :: rest) = scan? (.single q []) (c :: rest) := by
  rw [scan?, scan?]
  simp [Mode.step, hc]

theorem start_quote {q : Char} (hq : q = '"' ∨ q = '\'') (last : Char) :
    (Mode.between last).step q = some ([], .opening q) := by
  rcases hq with rfl | rfl <;> rfl

/-- The empty string. -/
theorem spells_empty (hc : c ≠ '"') : Spells ['"', '"'] (.text "" false) c := by
  refine .of_pending (m := .doubled '"') (fun last => ?_) (by simp [Mode.step, hc])
  exact .collect (start_quote (.inl rfl) last) (.step (by simp [Mode.step]))

/-- A basic string is one token. -/
theorem spells_groups (h : ∀ c ∈ cs, Group c (form c)) (hc : c ≠ '"') :
    Spells ('"' :: cs.flatMap form ++ ['"']) (.text (String.ofList cs) false) c := by
  cases cs with
  | nil => exact spells_empty hc
  | cons d cs =>
    refine .of_closed (q := '"') (by decide) (by decide) fun last => ?_
    obtain ⟨e, es, hform, he⟩ := (h d List.mem_cons_self).head
    have hclose : Scans (.single '"' ((d :: cs).flatMap form).reverse) ['"']
        [.text (String.ofList (d :: cs)) false] (.between '"') := by
      have htoken : singleToken? '"' ((d :: cs).flatMap form) =
          some (.text (String.ofList (d :: cs)) false) := by
        show (decode? false _).map _ = _
        rw [decode?_groups h]
        rfl
      exact .step (by simp only [Mode.step, ↓reduceIte, List.reverse_reverse, htoken]; rfl)
    have hbody : Scans (.opening '"') ((d :: cs).flatMap form) []
        (.single '"' ((d :: cs).flatMap form).reverse) := by
      intro rest
      have hsingle := scans_groups h [] rest
      rw [List.append_nil] at hsingle
      rw [← hsingle, List.flatMap_cons, hform]
      exact scan?_opening he _
    exact (Scans.collect (start_quote (.inl rfl) last) hbody).trans hclose

end Grouped

/-- A string with escapes on one line. -/
theorem spells_basic (cs : List Char) (hc : c ≠ '"') :
    Spells (basic cs) (.text (String.ofList cs) false) c :=
  spells_groups (fun c _ => group_basic c) hc

/-- Characters that a string without escapes can hold are decoded to themselves. -/
theorem literal?_self (h : ∀ c ∈ cs, needsEscape c = false) {multiline : Bool}
    (hline : multiline = false → '\n' ∉ cs) : literal? multiline cs = some (String.ofList cs) := by
  have hfold : ∀ done, cs.foldlM (literalStep multiline) (.plain, done) =
      some (.plain, cs.reverse ++ done) := by
    induction cs with
    | nil => exact fun _ => rfl
    | cons c cs ih =>
      intro done
      have hc : takePlain multiline done c = some (.plain, c :: done) := by
        by_cases hbreak : c = '\n'
        · subst hbreak
          cases multiline with
          | true => rfl
          | false => exact absurd List.mem_cons_self (hline rfl)
        · exact takePlain_self (h c List.mem_cons_self) hbreak multiline done
      have hrest := ih (fun d hd => h d (List.mem_cons_of_mem c hd))
        (fun hm hmem => hline hm (List.mem_cons_of_mem c hmem)) (c :: done)
      rw [List.foldlM_cons, show literalStep multiline (.plain, done) c = _ from hc]
      refine hrest.trans ?_
      simp
  unfold literal?
  rw [hfold]
  simp

theorem scans_literal (hquote : '\'' ∉ cs) (hline : '\n' ∉ cs) (collected : List Char) :
    Scans (.single '\'' collected) cs [] (.single '\'' (cs.reverse ++ collected)) := by
  induction cs generalizing collected with
  | nil => exact .refl _
  | cons c cs ih =>
    rw [List.mem_cons, not_or] at hquote hline
    have hrest := ih hquote.2 hline.2 (c :: collected)
    rw [List.reverse_cons, List.append_assoc]
    exact .collect (by simp [Mode.step, Ne.symm hquote.1, Ne.symm hline.1]) hrest

/-- A string without escapes on one line. -/
theorem spells_literal (hne : cs ≠ []) (h : ∀ c ∈ cs, needsEscape c = false) (hquote : '\'' ∉ cs)
    (hline : '\n' ∉ cs) (c : Char) :
    Spells (['\''] ++ cs ++ ['\'']) (.text (String.ofList cs) false) c := by
  refine .of_closed (q := '\'') (by decide) (by decide) fun last => ?_
  have htoken : singleToken? '\'' cs = some (.text (String.ofList cs) false) := by
    show (literal? false cs).map _ = _
    rw [literal?_self h fun _ => hline]
    rfl
  have hclose : Scans (.single '\'' cs.reverse) ['\''] [.text (String.ofList cs) false]
      (.between '\'') :=
    .step (by simp only [Mode.step, ↓reduceIte, List.reverse_reverse, htoken]; rfl)
  have hbody : Scans (.opening '\'') cs [] (.single '\'' cs.reverse) := by
    intro rest
    have hsingle := scans_literal hquote hline [] rest
    rw [List.append_nil] at hsingle
    rw [← hsingle]
    obtain ⟨d, ds, rfl⟩ := List.exists_cons_of_ne_nil hne
    have hd : d ≠ '\'' := by
      rintro rfl
      exact hquote List.mem_cons_self
    exact scan?_opening hd _
  exact (Scans.collect (start_quote (.inr rfl) last) hbody).trans hclose

/-! ## Strings over several lines -/

section Multiline

variable {q : Char}

/-- The body of a string over several lines is scanned up to quotes that may still be counted. -/
def ScansBody (q : Char) (body collected : List Char) (quotes : Nat) : Prop :=
  ∃ collected' quotes', quotes' ≤ 2 ∧
    Scans (.multi q collected quotes) body [] (.multi q collected' quotes') ∧
    List.replicate quotes' q ++ collected' = body.reverse ++ (List.replicate quotes q ++ collected)

theorem ScansBody.nil (h : quotes ≤ 2) : ScansBody q [] collected quotes :=
  ⟨collected, quotes, h, .refl _, rfl⟩

/-- A quote that is counted. -/
theorem ScansBody.quote (hquotes : quotes ≤ 1) (h : ScansBody q body collected (quotes + 1)) :
    ScansBody q (q :: body) collected quotes := by
  obtain ⟨collected', quotes', hle, hscans, heq⟩ := h
  have hne : quotes ≠ 4 := by omega
  refine ⟨collected', quotes', hle, .collect (by simp [Mode.step, hne]) hscans, heq.trans ?_⟩
  simp [List.replicate_succ]

/-- Characters after which quotes are counted anew. -/
theorem ScansBody.append {g : List Char} (hg : Scans (.multi q collected quotes) g []
      (.multi q (g.reverse ++ (List.replicate quotes q ++ collected)) 0))
    (h : ScansBody q body (g.reverse ++ (List.replicate quotes q ++ collected)) 0) :
    ScansBody q (g ++ body) collected quotes := by
  obtain ⟨collected', quotes', hle, hscans, heq⟩ := h
  refine ⟨collected', quotes', hle, hg.trans hscans, heq.trans ?_⟩
  simp

/-- Three quotes end the string after its body. -/
theorem Spells.of_body {t : Token} (hq : q = '"' ∨ q = '\'') (hbody : ScansBody q body [] 0)
    (ht : multiToken? q body = some t) (hc : c ≠ q) :
    Spells ([q, q, q] ++ body ++ [q, q, q]) t c := by
  obtain ⟨collected, quotes, hle, hscans, heq⟩ := hbody
  have hreverse : (List.replicate quotes q ++ collected).reverse = body := by
    rw [heq]
    simp
  have hopen : ∀ last, Scans (.between last) [q, q, q] [] (.multi q [] 0) := fun last =>
    .collect (start_quote hq last) (.collect (by simp [Mode.step]; rfl) (.step (by simp [Mode.step])))
  have hbefore : ∀ last, Scans (.between last) ([q, q, q] ++ body) [] (.multi q collected quotes) :=
    fun last => (hopen last).trans hscans
  by_cases hfull : quotes = 2
  · -- a fifth quote closes the string at once
    subst hfull
    have hclose : Mode.closeMulti q collected 5 = some t := by
      unfold Mode.closeMulti
      rw [hreverse, ht]
    have hlast : Scans (.multi q collected 2) [q, q, q] [t] (.between q) :=
      .collect (by simp [Mode.step]; rfl) (.collect (by simp [Mode.step]; rfl)
        (.step (by simp [Mode.step, hclose])))
    refine .of_closed (q := q) ?_ ?_ fun last => (hbefore last).trans hlast
    · rcases hq with rfl | rfl <;> decide
    · rcases hq with rfl | rfl <;> decide
  · have hclose : Mode.closeMulti q collected (quotes + 3) = some t := by
      unfold Mode.closeMulti
      rw [Nat.add_sub_cancel, hreverse, ht]
    have hlast : Scans (.multi q collected quotes) [q, q, q] [] (.multi q collected (quotes + 3)) := by
      intro rest
      have hne : quotes ≠ 4 ∧ quotes + 1 ≠ 4 ∧ quotes + 1 + 1 ≠ 4 := by omega
      simp [scan?, Mode.step, hne]
    refine .of_pending (fun last => (hbefore last).trans hlast) ?_
    simp [Mode.step, hc, hclose]

end Multiline

/-- A multi-line body does not end early. -/
theorem scansBody_multilineBody (cs collected : List Char) (hquotes : quotes ≤ 2) :
    ScansBody '"' (multilineBody quotes cs) collected quotes := by
  induction cs generalizing collected quotes with
  | nil => exact .nil hquotes
  | cons c cs ih =>
    rw [multilineBody]
    split
    · split
      · exact .append (g := ['\\', '"']) ((group_escape rfl).multi collected quotes hquotes)
          (ih _ (by omega))
      · exact .quote (by omega) (ih _ (by omega))
    · next hquote =>
      split
      · refine .append (g := ['\n']) (.step ?_) (ih _ (by omega))
        have hfew : ¬ 3 ≤ quotes := by omega
        simp [Mode.step, hfew]
      · next hline =>
        exact .append ((group_escapedChar hline hquote).multi collected quotes hquotes)
          (ih _ (by omega))

theorem foldlM_multilineBody (cs : List Char) (quotes : Nat) (done : List Char) :
    (multilineBody quotes cs).foldlM (decodeStep true) (.plain, done) =
      some (.plain, cs.reverse ++ done) := by
  induction cs generalizing quotes done with
  | nil => rfl
  | cons c cs ih =>
    have hgroup : ∀ g quotes, g.foldlM (decodeStep true) (.plain, done) = some (.plain, c :: done) →
        (g ++ multilineBody quotes cs).foldlM (decodeStep true) (.plain, done) =
          some (.plain, (c :: cs).reverse ++ done) := by
      intro g quotes hg
      rw [List.foldlM_append, hg]
      refine (ih quotes (c :: done)).trans ?_
      simp
    rw [multilineBody]
    split
    · next hquote =>
      subst hquote
      split
      · exact hgroup ['\\', '"'] 0 rfl
      · exact hgroup ['"'] (quotes + 1) rfl
    · next hquote =>
      split
      · next hline =>
        subst hline
        exact hgroup ['\n'] 0 rfl
      · next hline => exact hgroup _ 0 ((group_escapedChar hline hquote).decode true done)

/-- The line break after the opening quotes is dropped, and nothing else is. -/
theorem dropFirstBreak_append (h : '\n' ∉ cs → ∀ c ∈ body.head?, c ≠ '\n' ∧ c ≠ '\r') :
    dropFirstBreak (firstBreak cs ++ body) = body := by
  unfold firstBreak
  split
  · rfl
  · next hline =>
    have hhead := h (by simpa using hline)
    cases body with
    | nil => rfl
    | cons c body =>
      obtain ⟨hbreak, hreturn⟩ := hhead c rfl
      rw [List.nil_append]
      unfold dropFirstBreak
      split <;> simp_all

theorem scansBody_firstBreak {q : Char} (hq : q = '"' ∨ q = '\'')
    (h : ∀ collected, ScansBody q body collected 0) : ScansBody q (firstBreak cs ++ body) [] 0 := by
  unfold firstBreak
  split
  · refine .append (g := ['\n']) (.step ?_) (h _)
    rcases hq with rfl | rfl <;> rfl
  · exact h []

theorem head_escapedChar {d : Char} {rest : List Char} (hc : c ≠ '\n')
    (hd : (escapedChar c ++ rest).head? = some d) : d ≠ '\n' ∧ d ≠ '\r' := by
  unfold escapedChar at hd
  split at hd
  case h_6 =>
    split at hd
    · obtain rfl := Option.some.inj hd
      decide
    · next hplain =>
      obtain rfl := Option.some.inj hd
      exact ⟨hc, ne_return_of_needsEscape (by simpa using hplain)⟩
  all_goals
    obtain rfl := Option.some.inj hd
    decide

/-- A string with escapes over several lines. -/
theorem spells_multiline (cs : List Char) (hc : c ≠ '"') :
    Spells (multiline cs) (.text (String.ofList cs) true) c := by
  have htoken : multiToken? '"' (firstBreak cs ++ multilineBody 0 cs) =
      some (.text (String.ofList cs) true) := by
    have hhead : '\n' ∉ cs → ∀ d ∈ (multilineBody 0 cs).head?, d ≠ '\n' ∧ d ≠ '\r' := by
      intro hline d hd
      cases cs with
      | nil => cases hd
      | cons e cs =>
        have he : e ≠ '\n' := fun heq => hline (heq ▸ List.mem_cons_self)
        rw [multilineBody, if_neg (show ¬ 0 = 2 by decide), if_neg he] at hd
        split at hd
        · obtain rfl := Option.some.inj hd
          decide
        · exact head_escapedChar he hd
    unfold multiToken?
    rw [dropFirstBreak_append hhead]
    simp [decode?, foldlM_multilineBody]
  have hbody : ScansBody '"' (firstBreak cs ++ multilineBody 0 cs) [] 0 :=
    scansBody_firstBreak (.inl rfl) fun collected => scansBody_multilineBody cs collected (by omega)
  have hall := Spells.of_body (.inl rfl) hbody htoken hc
  simpa [multiline] using hall

theorem scansBody_literal (cs collected : List Char) (hquotes : quotes ≤ 2)
    (h : hasTriple '\'' quotes cs = false) : ScansBody '\'' cs collected quotes := by
  induction cs generalizing collected quotes with
  | nil => exact .nil hquotes
  | cons c cs ih =>
    rw [hasTriple] at h
    split at h
    · next hquote =>
      subst hquote
      simp only [Bool.or_eq_false_iff, beq_eq_false_iff_ne] at h
      exact .quote (by omega) (ih _ (by omega) h.2)
    · next hquote =>
      refine .append (g := [c]) (.step ?_) (ih _ (by omega) h)
      have hfew : ¬ 3 ≤ quotes := by omega
      simp [Mode.step, hquote, hfew]

/-- A string without escapes over several lines. -/
theorem spells_multilineLiteral (h : ∀ c ∈ cs, needsEscape c = false)
    (htriple : hasTriple '\'' 0 cs = false) (hc : c ≠ '\'') :
    Spells (['\'', '\'', '\''] ++ firstBreak cs ++ cs ++ ['\'', '\'', '\''])
      (.text (String.ofList cs) true) c := by
  have htoken : multiToken? '\'' (firstBreak cs ++ cs) = some (.text (String.ofList cs) true) := by
    unfold multiToken?
    rw [dropFirstBreak_append]
    · show (literal? true cs).map _ = _
      rw [literal?_self h (by simp)]
      rfl
    · intro hline d hd
      have hmem : d ∈ cs := List.mem_of_mem_head? hd
      exact ⟨fun e => hline (e ▸ hmem), ne_return_of_needsEscape (h d hmem)⟩
  have hbody : ScansBody '\'' (firstBreak cs ++ cs) [] 0 :=
    scansBody_firstBreak (.inr rfl) fun collected => scansBody_literal cs collected (by omega) htriple
  have hall := Spells.of_body (.inr rfl) hbody htoken hc
  simpa using hall

theorem not_needsEscape_of_any (h : (!cs.any needsEscape) = true) :
    ∀ c ∈ cs, needsEscape c = false := by
  intro c hc
  simpa using List.any_eq_false.mp (by simpa using h) c hc

/-- A text is read back from the form that it is written in. -/
theorem spells_string (s : String) : ∃ multiline, ∀ c, c ≠ '"' → c ≠ '\'' →
    Spells (string s).toList (.text s multiline) c := by
  have hchars : ∃ multiline, ∀ c, c ≠ '"' → c ≠ '\'' →
      Spells (stringChars s.toList) (.text (String.ofList s.toList) multiline) c := by
    unfold stringChars
    dsimp only
    split
    · exact ⟨false, fun c hc _ => spells_basic _ hc⟩
    split
    · next hspecial h =>
      simp only [Bool.and_eq_true, Bool.not_eq_true', List.contains_eq_mem, decide_eq_false_iff_not]
        at h
      refine ⟨false, fun c _ _ => spells_literal ?_ (not_needsEscape_of_any (by simpa using h.1.1)) h.2 h.1.2 c⟩
      intro hnil
      rw [hnil] at hspecial
      exact hspecial rfl
    split
    · exact ⟨true, fun c hc _ => spells_multiline _ hc⟩
    split
    · next h =>
      simp only [Bool.and_eq_true, Bool.not_eq_true'] at h
      exact ⟨true, fun c _ hc => spells_multilineLiteral (not_needsEscape_of_any (by simpa using h.1)) h.2 hc⟩
    split
    · exact ⟨false, fun c hc _ => spells_basic _ hc⟩
    · exact ⟨true, fun c hc _ => spells_multiline _ hc⟩
  rw [String.ofList_toList] at hchars
  simpa [string] using hchars

/-! ## Keys -/

/-- Whether a key is written as it is. -/
def isBareKey (s : String) : Bool :=
  !s.toList.isEmpty && s.toList.all isBareChar

theorem toNat_of_isBareChar (hc : isBareChar c = true) :
    c.toNat = 45 ∨ (48 ≤ c.toNat ∧ c.toNat ≤ 57) ∨ (65 ≤ c.toNat ∧ c.toNat ≤ 90) ∨ c.toNat = 95 ∨
      (97 ≤ c.toNat ∧ c.toNat ≤ 122) := by
  simp only [isBareChar, Char.isAlphanum, Bool.or_eq_true, beq_iff_eq, Text.isAlpha_iff_toNat,
    Text.isDigit_iff_toNat] at hc
  rcases hc with (hc | rfl) | rfl
  · omega
  · decide
  · decide

theorem not_isControl_of_isBareChar (hc : isBareChar c = true) : isControl c = false := by
  have hrange := toNat_of_isBareChar hc
  have hne : ¬ c.toNat < 0x20 ∧ c.toNat ≠ 0x7F := by omega
  simp [isControl, hne]

theorem not_endsWord_of_isBareChar (hc : isBareChar c = true) : Mode.endsWord c = false := by
  have hne : ∀ d : Char, isBareChar d = false → c ≠ d := by
    rintro d hd rfl
    rw [hc] at hd
    cases hd
  have hpunctuation : punctuation? ' ' c = none := by
    unfold punctuation?
    split <;> first | rfl | exact absurd rfl (hne _ (by decide))
  simp [Mode.endsWord, hpunctuation, hne ' ' (by decide), hne '\t' (by decide),
    hne '\n' (by decide), hne '\r' (by decide), hne '#' (by decide), hne '"' (by decide),
    hne '\'' (by decide)]

/-- The token of a key. -/
def tokenOfKey (s : String) : Token :=
  if isBareKey s then .word s.toList else .text s false

theorem scans_sign : Scans (.between ' ') ['=', ' '] [.equals] (.between ' ') := by
  have hsign : (Mode.between ' ').step '=' = some ([.equals], .between '=') := rfl
  have hspace : (Mode.between '=').step ' ' = some ([], .between ' ') := rfl
  exact .cons hsign (.step hspace)

/-- What stands between a key and its value. -/
theorem scans_equals {t : Token} (h : Spells cs t ' ') (last : Char) :
    Scans (.between last) (cs ++ [' ', '=', ' ']) [t, .equals] (.between ' ') := by
  intro rest
  have hequals : Scans (.between ' ') [' ', '=', ' '] [.equals] (.between ' ') :=
    .collect rfl scans_sign
  have hafter := hequals rest
  rw [List.append_assoc]
  refine (h last _).trans ((congrArg _ hafter).trans ?_)
  rw [Option.map_map]
  rfl

/-- A bare key may look like a date, after which the scanner waits for a time. -/
theorem scans_bareKey {w : List Char} (hne : w ≠ []) (hw : ∀ c ∈ w, isBareChar c = true)
    (last : Char) :
    Scans (.between last) (w ++ [' ', '=', ' ']) [.word w, .equals] (.between ' ') := by
  have hword : Scans (.between last) w [] (.word w.reverse) :=
    scans_wholeWord hne (fun c hc => not_endsWord_of_isBareChar (hw c hc))
      (fun c hc => not_isControl_of_isBareChar (hw c hc)) last
  refine hword.trans ?_
  by_cases hdate : isDateWord w = true
  · have hwait : (Mode.word w.reverse).step ' ' = some ([], .date w.reverse) := by
      simp [Mode.step, hdate]
    have hend : (Mode.date w.reverse).step '=' = some ([.word w, .equals], .between '=') := by
      simp [Mode.step, Mode.start, isControl, punctuation?]
    exact .collect hwait (.cons hend (.step rfl))
  · have hend : (Mode.word w.reverse).step ' ' = some ([.word w], .between ' ') := by
      simp [Mode.step, hdate, Mode.endsWord, Mode.start]
    exact .cons hend scans_sign

/-- A quoted key is one token. -/
theorem spells_quotedKey {s : String} (hs : isBareKey s = false) :
    Spells (keyChars s.toList) (.text s false) ' ' := by
  unfold keyChars
  dsimp only
  rw [if_neg (by simpa [isBareKey] using hs)]
  have hplain : ∀ {P : Prop}, (!s.toList.any fun c => needsEscape c || c == '\n') = true ∧ P →
      ∀ c ∈ s.toList, needsEscape c = false ∧ c ≠ '\n' := by
    intro P h
    simpa using h.1
  split
  · next h =>
    simp only [Bool.and_eq_true, Bool.not_eq_true', List.contains_eq_mem, decide_eq_false_iff_not,
      and_assoc] at h
    have hgroups : ∀ c ∈ s.toList, Group c [c] := by
      intro c hc
      obtain ⟨hescape, hline⟩ := hplain (by simpa using h) c hc
      exact group_self hescape hline (fun e => h.2.2 (e ▸ hc)) (fun e => h.2.1 (e ▸ hc))
    have hall := spells_groups hgroups (c := ' ') (by decide)
    rw [String.ofList_toList] at hall
    simpa using hall
  split
  · next hspecial h =>
    simp only [Bool.and_eq_true, Bool.not_eq_true', List.contains_eq_mem, decide_eq_false_iff_not]
      at h
    have hescapes := hplain (by simpa using h)
    have hne : s.toList ≠ [] := by
      intro hnil
      rw [hnil] at hspecial
      exact hspecial rfl
    have hall := spells_literal hne (fun c hc => (hescapes c hc).1) h.2
      (fun hc => (hescapes _ hc).2 rfl) ' '
    rwa [String.ofList_toList] at hall
  · have hall := spells_basic s.toList (c := ' ') (by decide)
    rwa [String.ofList_toList] at hall

/-- A key and the sign after it. -/
theorem scans_key (s : String) (last : Char) :
    Scans (.between last) ((key s).toList ++ [' ', '=', ' ']) [tokenOfKey s, .equals]
      (.between ' ') := by
  have hchars : (key s).toList = keyChars s.toList := by simp [key]
  rw [hchars]
  unfold tokenOfKey
  by_cases hs : isBareKey s = true
  · rw [if_pos hs]
    have hparts := hs
    simp only [isBareKey, Bool.and_eq_true, Bool.not_eq_true', List.isEmpty_eq_false_iff,
      List.all_eq_true] at hparts
    have hkey : keyChars s.toList = s.toList := if_pos hs
    rw [hkey]
    exact scans_bareKey hparts.1 hparts.2 last
  · rw [if_neg hs]
    exact scans_equals (spells_quotedKey (by simpa using hs)) last

end ScriptExport.Toml
