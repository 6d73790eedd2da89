import ScriptExport.Proofs.Constant.Spelling

/-!
# Texts that can be read

Every text that can be read spells lexemes (`spells_of_tokens`). What the reader is in the middle of is
always the beginning of a lexeme (`Mode.Pends`); one character either takes it further or completes
lexemes with the tokens that are handed out (`completes_step`), and so does the rest of the text.
-/

namespace ScriptExport.Constant

/-! ## Names that go on -/

namespace Identifier

theorem segments_ne_nil (i : Identifier) : i.segments ≠ [] := by
  intro hnil
  have hstarts := i.starts
  rw [hnil] at hstarts
  cases hstarts

theorem exists_single {c : Char} (hc : (Text.isLetter c || c == '_') = true) :
    ∃ i : Identifier, i.text = [c] := by
  refine ⟨⟨[[c]], ?_, hc⟩, rfl⟩
  intro s hs d hd
  rw [List.mem_singleton.mp hs] at hd
  rw [List.mem_singleton.mp hd]
  rcases Bool.or_eq_true_iff.mp hc with hc | hc
  · exact isNameChar_of_isLetter hc
  · rw [beq_iff_eq.mp hc]; decide

theorem exists_colons : ∃ i : Identifier, i.text = [':', ':'] :=
  ⟨⟨[[], []], by simp, rfl⟩, rfl⟩

theorem startsName_push {ss : List (List Char)} {s : List Char} (c : Char)
    (h : startsName (ss ++ [s]) = true) : startsName (ss ++ [s ++ [c]]) = true := by
  match ss, s, h with
  | [], _ :: _, h => exact h
  | (_ :: _) :: _, _, h => exact h
  | [[]], _, _ => rfl
  | [] :: _ :: _, _, _ => rfl

/-- A name may go on with one more character. -/
theorem exists_push (i : Identifier) {c : Char} (hc : isNameChar c = true) :
    ∃ j : Identifier, j.text = i.text ++ [c] := by
  obtain ⟨ss, s, hss⟩ := List.eq_nil_or_concat i.segments |>.resolve_left i.segments_ne_nil
  rw [List.concat_eq_append] at hss
  have hchars := i.chars
  have hstarts := i.starts
  rw [hss] at hchars hstarts
  refine ⟨⟨ss ++ [s ++ [c]], ?_, startsName_push c hstarts⟩, ?_⟩
  · intro t ht d hd
    rcases List.mem_append.mp ht with ht | ht
    · exact hchars t (List.mem_append_left _ ht) d hd
    · rw [List.mem_singleton.mp ht] at hd
      rcases List.mem_append.mp hd with hd | hd
      · exact hchars s (by simp) d hd
      · rwa [List.mem_singleton.mp hd]
  · show Text.joinChars [':', ':'] (ss ++ [s ++ [c]]) = Text.joinChars [':', ':'] i.segments ++ [c]
    rw [hss]
    by_cases hinit : ss = []
    · rw [hinit]
      rfl
    · rw [Text.joinChars_concat hinit, Text.joinChars_concat hinit, List.append_assoc _ s]

/-- A name may go on with `::`. -/
theorem exists_pushColons (i : Identifier) : ∃ j : Identifier, j.text = i.text ++ [':', ':'] := by
  have hstarts := i.starts
  refine ⟨⟨i.segments ++ [[]], ?_, ?_⟩, ?_⟩
  · intro t ht d hd
    rcases List.mem_append.mp ht with ht | ht
    · exact i.chars t ht d hd
    · rw [List.mem_singleton.mp ht] at hd
      cases hd
  · match i.segments, hstarts with
    | (_ :: _) :: _, hstarts => exact hstarts
    | [] :: _ :: _, _ => rfl
  · unfold text
    rw [Text.joinChars_concat i.segments_ne_nil, List.append_nil]

end Identifier

/-! ## One character -/

/-- What the reader is in the middle of, and the text it has taken up for that. -/
inductive Mode.Pends : Mode → List Char → Prop where
  | between : Pends .between []
  | number (c : Char) (cs : List Char) (hc : c.isDigit = true)
    (hcs : ∀ d ∈ cs, isLiteralChar d = true) : Pends (.number (c :: cs).reverse) (c :: cs)
  | name (i : Identifier) : Pends (.name i.text.reverse) i.text
  | leadingColon : Pends (.nameColon []) [':']
  | nameColon (i : Identifier) : Pends (.nameColon i.text.reverse) (i.text ++ [':'])
  | shift (d : Char) (hd : d = '<' ∨ d = '>') : Pends (.shift d) [d]

theorem Mode.Pends.of_text {i : Identifier} {cs : List Char} (h : i.text = cs) :
    (Mode.name cs.reverse).Pends cs :=
  h ▸ .name i

/-- With `c` the reader goes from `mode` to `next` and hands out tokens: they are those of lexemes
that complete what was taken up. -/
def Completes (pending : List Char) (c : Char) (ts : List Token) (next : Mode) : Prop :=
  ∃ xs pending', next.Pends pending' ∧ xs.map Lexeme.token = ts ∧ xs.all (·.fits) = true ∧
    ∀ ls rest, Spells ls (pending' ++ rest) → Spells (xs ++ ls) (pending ++ c :: rest)

namespace Completes

variable {pending : List Char} {c : Char} {ts : List Token} {next : Mode} {x : Lexeme}

/-- The character takes further what was taken up. -/
theorem of_pends (h : next.Pends (pending ++ [c])) : Completes pending c [] next := by
  refine ⟨[], pending ++ [c], h, rfl, rfl, fun ls rest hls => ?_⟩
  rwa [List.append_assoc] at hls

/-- The character is the last one of a lexeme. -/
theorem of_lexeme (htext : x.text = pending ++ [c]) (hx : x.fits = true) :
    Completes pending c [x.token] .between := by
  refine ⟨[x], [], .between, rfl, by simp [hx], fun ls rest hls => ?_⟩
  have hspells := Spells.lexeme x hls
  rwa [htext, List.append_assoc] at hspells

/-- A lexeme ends before a character with which the next one starts. -/
theorem after_lexeme (hx : x.fits = true) (h : Completes [] c ts next) :
    Completes x.text c (x.token :: ts) next := by
  obtain ⟨xs, pending, hpends, htokens, hfits, hspells⟩ := h
  refine ⟨x :: xs, pending, hpends, by rw [List.map_cons, htokens], by simp [hx, hfits], ?_⟩
  intro ls rest hls
  exact .lexeme x (hspells ls rest hls)

end Completes

theorem singleToken?_spec {c : Char} {t : Token} (h : singleToken? c = some t) :
    ∃ x : Lexeme, x.text = [c] ∧ x.token = t ∧ x.fits = true := by
  unfold singleToken? at h
  split at h
  · cases h; exact ⟨.openParen, rfl, rfl, rfl⟩
  · cases h; exact ⟨.closeParen, rfl, rfl, rfl⟩
  · cases h; exact ⟨.operator .add, rfl, rfl, rfl⟩
  · cases h; exact ⟨.operator .sub, rfl, rfl, rfl⟩
  · cases h; exact ⟨.tilde, rfl, rfl, rfl⟩
  · cases h; exact ⟨.operator .mul, rfl, rfl, rfl⟩
  · cases h; exact ⟨.operator .div, rfl, rfl, rfl⟩
  · cases h; exact ⟨.operator .mod, rfl, rfl, rfl⟩
  · cases h; exact ⟨.operator .bitAnd, rfl, rfl, rfl⟩
  · cases h; exact ⟨.operator .bitXor, rfl, rfl, rfl⟩
  · cases h; exact ⟨.operator .bitOr, rfl, rfl, rfl⟩
  · cases h

variable {ts : List Token} {pending : List Char}

/-- What the first character of a token leaves pending. -/
theorem completes_start {c : Char} {next : Mode} (h : Mode.start c = .ok (ts, next)) :
    Completes [] c ts next := by
  unfold Mode.start at h
  split at h
  case isTrue hblank =>
    cases h
    exact ⟨[], [], .between, rfl, rfl, fun ls rest hls => .blank c hblank hls⟩
  case isFalse =>
    split at h
    case isTrue hdigit =>
      cases h
      exact .of_pends (.number c [] hdigit (by simp))
    case isFalse =>
      split at h
      case isTrue hname =>
        cases h
        obtain ⟨i, hi⟩ := Identifier.exists_single hname
        exact .of_pends (.of_text hi)
      case isFalse =>
        split at h
        case isTrue hcolon =>
          cases h
          rw [beq_iff_eq.mp hcolon]
          exact .of_pends .leadingColon
        case isFalse =>
          split at h
          case isTrue hshift =>
            cases h
            have hd : c = '<' ∨ c = '>' := by simpa using hshift
            exact .of_pends (.shift c hd)
          case isFalse =>
            split at h
            · next t ht =>
              cases h
              obtain ⟨x, htext, htoken, hfits⟩ := singleToken?_spec ht
              rw [← htoken]
              exact .of_lexeme htext hfits
            · cases h

theorem bind_eq_ok {ε α β : Type} {x : Except ε α} {f : α → Except ε β} {b : β} :
    (x >>= f) = .ok b ↔ ∃ a, x = .ok a ∧ f a = .ok b := by
  cases x with
  | error e =>
    refine ⟨fun h => ?_, fun h => ?_⟩
    · cases h
    · obtain ⟨a, ha, -⟩ := h
      cases ha
  | ok a =>
    refine ⟨fun h => ⟨a, rfl, h⟩, fun h => ?_⟩
    obtain ⟨a', ha, h⟩ := h
    cases ha
    exact h

theorem read_eq_ok {x : Lexeme} {t : Token} (h : x.read = .ok t) : x.fits = true ∧ x.token = t := by
  have hread := toOption_read x
  rw [h] at hread
  cases hfits : x.fits with
  | false => rw [hfits] at hread; cases hread
  | true =>
    rw [hfits] at hread
    exact ⟨rfl, (Option.some.inj hread).symm⟩

/-- A literal that can be read, with the lexeme that it is. -/
theorem exists_lexeme_of_readLiteral {c : Char} {cs : List Char} {v : Int64}
    (hc : c.isDigit = true) (hcs : ∀ d ∈ cs, isLiteralChar d = true)
    (h : readLiteral (c :: cs) = .ok v) :
    ∃ x : Lexeme, x.text = c :: cs ∧ x.token = .number v ∧ x.fits = true := by
  obtain ⟨l, hl⟩ := exists_literal_of_readLiteral hc hcs h
  have hread : (Lexeme.literal l).read = .ok (.number v) := by
    show (readLiteral l.text).map Token.number = _
    rw [hl, h]
    rfl
  obtain ⟨hfits, htoken⟩ := read_eq_ok hread
  exact ⟨.literal l, hl, htoken, hfits⟩

theorem token_name (i : Identifier) : (Lexeme.name i).token = nameToken i.text.reverse := by
  rw [nameToken, List.reverse_reverse, Identifier.dropColons_text]
  rfl

/-- One character of a text that can be read. -/
theorem completes_step {mode next : Mode} {c : Char} (hpends : mode.Pends pending)
    (h : mode.step c = .ok (ts, next)) : Completes pending c ts next := by
  cases hpends with
  | between => exact completes_start h
  | number first cs hfirst hcs =>
    rw [Mode.step] at h
    split at h
    case isTrue hc =>
      cases h
      have hpends := Mode.Pends.number first (cs ++ [c]) hfirst
        (by simpa [or_imp, forall_and] using ⟨hcs, hc⟩)
      exact .of_pends (by simpa using hpends)
    case isFalse =>
      obtain ⟨v, hv, h⟩ := bind_eq_ok.mp h
      obtain ⟨⟨ts', next'⟩, hstart, h⟩ := bind_eq_ok.mp h
      cases h
      rw [List.reverse_reverse] at hv
      obtain ⟨x, htext, htoken, hfits⟩ := exists_lexeme_of_readLiteral hfirst hcs hv
      rw [← htext, ← htoken]
      exact (completes_start hstart).after_lexeme hfits
  | name i =>
    rw [Mode.step] at h
    split at h
    case isTrue hc =>
      cases h
      obtain ⟨j, hj⟩ := i.exists_push hc
      exact .of_pends (by simpa using Mode.Pends.of_text hj)
    case isFalse =>
      split at h
      case isTrue hc =>
        cases h
        rw [beq_iff_eq.mp hc]
        exact .of_pends (.nameColon i)
      case isFalse =>
        obtain ⟨⟨ts', next'⟩, hstart, h⟩ := bind_eq_ok.mp h
        cases h
        rw [← token_name]
        exact (completes_start hstart).after_lexeme rfl
  | leadingColon =>
    rw [Mode.step] at h
    split at h
    case isTrue hc =>
      cases h
      rw [beq_iff_eq.mp hc]
      obtain ⟨j, hj⟩ := Identifier.exists_colons
      exact .of_pends (.of_text hj)
    case isFalse => cases h
  | nameColon i =>
    rw [Mode.step] at h
    split at h
    case isTrue hc =>
      cases h
      rw [beq_iff_eq.mp hc]
      obtain ⟨j, hj⟩ := i.exists_pushColons
      exact .of_pends (by simpa using Mode.Pends.of_text hj)
    case isFalse => cases h
  | shift d hd =>
    rw [Mode.step] at h
    split at h
    case isTrue hc =>
      cases h
      rw [beq_iff_eq.mp hc]
      rcases hd with rfl | rfl
      · exact .of_lexeme (x := .operator .shiftLeft) rfl rfl
      · exact .of_lexeme (x := .operator .shiftRight) rfl rfl
    case isFalse => cases h

/-! ## The whole text -/

/-- What is pending at the end spells the last tokens. -/
theorem spells_of_finish {mode : Mode} (hpends : mode.Pends pending) (h : mode.finish = .ok ts) :
    ∃ ls : List Lexeme, ls.map (·.token) = ts ∧ ls.all (·.fits) = true ∧ Spells ls pending := by
  have hone : ∀ x : Lexeme, Spells [x] x.text := fun x => by
    have := Spells.lexeme x Spells.nil
    rwa [List.append_nil] at this
  cases hpends with
  | between =>
    cases h
    exact ⟨[], rfl, rfl, .nil⟩
  | number first cs hfirst hcs =>
    rw [Mode.finish, List.reverse_reverse] at h
    cases hv : readLiteral (first :: cs) with
    | error e => rw [hv] at h; cases h
    | ok v =>
      rw [hv] at h
      cases h
      obtain ⟨x, htext, htoken, hfits⟩ := exists_lexeme_of_readLiteral hfirst hcs hv
      exact ⟨[x], by simp [htoken], by simp [hfits], htext ▸ hone x⟩
  | name i =>
    cases h
    exact ⟨[.name i], by simp [token_name], rfl, hone (.name i)⟩
  | leadingColon => cases h
  | nameColon i => cases h
  | shift d hd => cases h

/-- The rest of a text that can be read. -/
theorem spells_of_scan {mode : Mode} {cs : List Char} (hpends : mode.Pends pending)
    (h : scan mode cs = .ok ts) :
    ∃ ls : List Lexeme, ls.map (·.token) = ts ∧ ls.all (·.fits) = true ∧
      Spells ls (pending ++ cs) := by
  induction cs generalizing mode pending ts with
  | nil =>
    rw [List.append_nil]
    exact spells_of_finish hpends h
  | cons c cs ih =>
    rw [scan] at h
    obtain ⟨⟨ts₁, next⟩, hstep, h⟩ := bind_eq_ok.mp h
    obtain ⟨ts₂, hrest, h⟩ := bind_eq_ok.mp h
    cases h
    obtain ⟨xs, pending', hpends', htokens, hfits, hspells⟩ := completes_step hpends hstep
    obtain ⟨ls, htokens', hfits', hls⟩ := ih hpends' hrest
    exact ⟨xs ++ ls, by rw [List.map_append, htokens, htokens'], by simp [hfits, hfits'],
      hspells ls cs hls⟩

/-- A text that can be read spells lexemes with those tokens. -/
theorem spells_of_tokens {text : String} (h : tokens text = .ok ts) :
    ∃ ls : List Lexeme, ls.map (·.token) = ts ∧ ls.all (·.fits) = true ∧ Spells ls text.toList :=
  spells_of_scan .between h

end ScriptExport.Constant
