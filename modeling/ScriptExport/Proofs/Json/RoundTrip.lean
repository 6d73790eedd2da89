import ScriptExport.Json.Printer
import ScriptExport.Json.Reader
import ScriptExport.Proofs.Document.Plain
import ScriptExport.Proofs.Text.Ascii
import Mathlib.Data.List.TakeWhile

/-!
# Reading back JSON text

Both layouts of a value are read back as the value, if its parts can be written: `parse?_compact` and
`parse?_pretty`. The text gives the tokens of the value (`Scans`, and `Spells` for a word, which ends
where the next character says so), and these take the stack machine from any stack to the one with the
value in place (`run?_tokensOf`).
-/

namespace ScriptExport

variable {cs : List Char} {ts : List Token}

namespace Json

/-! ## Pieces of text -/

/-- Outside of strings and words the text gives the tokens, whatever follows. -/
def Scans (cs : List Char) (ts : List Token) : Prop :=
  ∀ rest, scan? .between (cs ++ rest) = (scan? .between rest).map (ts ++ ·)

/-- The text gives the tokens where no word goes on after it. -/
def Spells (cs : List Char) (ts : List Token) : Prop :=
  ∀ rest, (∀ c ∈ rest.head?, Mode.endsWord c = true) →
    scan? .between (cs ++ rest) = (scan? .between rest).map (ts ++ ·)

theorem Scans.spells (h : Scans cs ts) : Spells cs ts :=
  fun rest _ => h rest

theorem Scans.nil : Scans [] [] := by
  intro rest
  cases h : scan? .between rest <;> simp [h]

/-- Texts are scanned one after the other. -/
theorem Scans.append {ds : List Char} {us : List Token} (h : Scans cs ts) (h' : Scans ds us) :
    Scans (cs ++ ds) (ts ++ us) := by
  intro rest
  rw [List.append_assoc, h, h', Option.map_map]
  congr 1
  funext vs
  simp

theorem Scans.append_spells {ds : List Char} {us : List Token} (h : Scans cs ts) (h' : Spells ds us)
    : Spells (cs ++ ds) (ts ++ us) := by
  intro rest hrest
  rw [List.append_assoc, h, h' rest hrest, Option.map_map]
  congr 1
  funext vs
  simp

/-- A character that ends words closes what stands before it. -/
theorem Spells.append_scans {ds : List Char} {d : Char} {us : List Token} (h : Spells cs ts)
    (hd : Mode.endsWord d = true) (h' : Scans (d :: ds) us) : Scans (cs ++ d :: ds) (ts ++ us) := by
  intro rest
  rw [List.append_assoc, h, h', Option.map_map]
  · congr 1
    funext vs
    simp
  · simpa using hd

theorem scans_space {c : Char} (hc : isSpace c = true) : Scans [c] [] := by
  intro rest
  simp [scan?, Mode.step, Mode.start, hc]

theorem scans_punctuation {c : Char} {t : Token} (hc : punctuation? c = some t) : Scans [c] [t] := by
  have hspace : isSpace c = false := by
    unfold punctuation? at hc
    split at hc <;> first | rfl | cases hc
  have hquote : c ≠ '"' := by
    rintro rfl
    cases hc
  intro rest
  simp only [List.cons_append, List.nil_append, scan?, Mode.step, Mode.start, hspace, hquote, hc,
    Bool.false_eq_true, ↓reduceIte, Option.bind_eq_bind, Option.bind_some]
  cases scan? .between rest <;> rfl

theorem scan?_word {w : List Char} (hw : ∀ c ∈ w, Mode.endsWord c = false)
    (collected rest : List Char) :
    scan? (.word collected) (w ++ rest) = scan? (.word (w.reverse ++ collected)) rest := by
  induction w generalizing collected with
  | nil => rfl
  | cons c w ih =>
    have hc := hw c List.mem_cons_self
    rw [List.cons_append, scan?]
    simp only [Mode.step, hc, Bool.false_eq_true, ↓reduceIte, Option.bind_eq_bind, Option.bind_some]
    rw [ih (fun d hd => hw d (List.mem_cons_of_mem c hd))]
    simp

theorem start_of_word {c : Char} (hc : Mode.endsWord c = false) :
    Mode.start [] c = ([], .word [c]) := by
  unfold Mode.endsWord at hc
  simp only [Bool.or_eq_false_iff, beq_eq_false_iff_ne] at hc
  obtain ⟨⟨hspace, hquote⟩, hpunctuation⟩ := hc
  unfold Mode.start
  simp only [hspace, hquote, Bool.false_eq_true, ↓reduceIte]
  cases h : punctuation? c with
  | none => rfl
  | some t => rw [h] at hpunctuation; cases hpunctuation

/-- What comes before a character does not change what becomes of it. -/
theorem start_eq (before : List Token) (c : Char) :
    Mode.start before c = (before ++ (Mode.start [] c).1, (Mode.start [] c).2) := by
  unfold Mode.start
  split
  · simp
  · split
    · simp
    · cases punctuation? c <;> simp

/-- A word is one token. -/
theorem spells_word {w : List Char} {t : Token} (hne : w ≠ [])
    (hw : ∀ c ∈ w, Mode.endsWord c = false) (ht : wordToken? w = some t) : Spells w [t] := by
  obtain ⟨c, w, rfl⟩ := List.exists_cons_of_ne_nil hne
  intro rest hrest
  have hcollected : scan? .between (c :: w ++ rest) = scan? (.word (c :: w).reverse) rest := by
    rw [List.cons_append, scan?]
    simp only [Mode.step, start_of_word (hw c List.mem_cons_self), Option.bind_eq_bind,
      Option.bind_some]
    rw [scan?_word (fun d hd => hw d (List.mem_cons_of_mem c hd))]
    simp
  rw [hcollected]
  cases rest with
  | nil => simp [scan?, Mode.finish, ht]
  | cons d rest =>
    have hd : Mode.endsWord d = true := hrest d rfl
    rw [scan?, scan?]
    simp only [Mode.step, hd, ↓reduceIte, List.reverse_reverse, ht, Option.map_some, start_eq [t] d,
      Option.bind_eq_bind, Option.bind_some]
    cases scan? (Mode.start [] d).2 rest <;> simp

/-! ## Words -/

theorem not_endsWord_of_isDigit {c : Char} (hc : c.isDigit = true) : Mode.endsWord c = false := by
  have hrange := Text.isDigit_iff_toNat.mp hc
  have hne : ∀ d : Char, (d.toNat < 48 ∨ 57 < d.toNat) → c ≠ d := by
    rintro d hd rfl
    omega
  unfold Mode.endsWord isSpace
  have hpunctuation : punctuation? c = none := by
    unfold punctuation?
    split <;> first | rfl | exact absurd rfl (hne _ (by decide))
  simp [hpunctuation, hne ' ' (by decide), hne '\n' (by decide), hne '\t' (by decide),
    hne '\r' (by decide), hne '"' (by decide)]

theorem digits_toDigits (n : Nat) : digits (Nat.toDigits 10 n) = (Nat.toDigits 10 n, []) := by
  have hall : (Nat.toDigits 10 n).all Char.isDigit = true :=
    List.all_eq_true.mpr fun _ hc => Text.isDigit_of_mem_toDigits hc
  unfold digits
  rw [List.takeWhile_eq_self_iff.mpr (by simpa using hall),
    List.dropWhile_eq_nil_iff.mpr (by simpa using hall)]

theorem isIntegerPart_toDigits (n : Nat) : isIntegerPart (Nat.toDigits 10 n) = true := by
  by_cases hn : n = 0
  · subst hn
    rfl
  · obtain ⟨d, ds, hds, hd, -⟩ := Text.toDigits_eq_cons hn
    rw [hds]
    unfold isIntegerPart
    split
    · next heq => cases heq
    · rfl
    · next heq => cases heq; simpa using hd

/-- Integers of 64 bits are far from the bound of a double-precision number. -/
theorem isHuge_toDigits {n : Nat} (hn : n ≤ 9223372036854775808) : isHuge (Nat.toDigits 10 n) 0 = false := by
  have hlength : (Nat.toDigits 10 n).length ≤ 19 :=
    (Nat.length_toDigits_le_iff (by decide) (by decide)).mpr (by omega)
  have hdrop := (List.dropWhile_sublist (· == '0') (l := Nat.toDigits 10 n)).length_le
  unfold isHuge
  dsimp only
  rw [if_pos]
  rw [Bool.or_eq_true, decide_eq_true_eq]
  omega

/-- A written integer is read. -/
theorem number?_toString {n : Int} (hn : Value.isInt64 n = true) :
    number? (toString n).toList = some (.int n) := by
  have hhuge := isHuge_toDigits (Value.natAbs_le_of_isInt64 hn)
  have hvalue : decimalValue (Nat.toDigits 10 n.natAbs) = n.natAbs :=
    Nat.ofDigitChars_ten_toDigits
  rw [Text.toList_toString_int]
  by_cases hneg : n < 0
  · have hdigits : Nat.toDigits 10 n.natAbs ≠ ['0'] := by
      obtain ⟨d, ds, hds, hd, -⟩ := Text.toDigits_eq_cons (n := n.natAbs) (by omega)
      rw [hds]
      simp [hd]
    rw [if_pos hneg]
    simp only [number?, digits_toDigits, isIntegerPart_toDigits, fraction?, exponent?, hvalue,
      List.append_nil, Bool.not_true, Bool.false_eq_true, ↓reduceIte, Option.bind_eq_bind,
      Option.bind_some, List.length_nil, Int.natCast_zero, Int.sub_zero, hhuge]
    generalize hk : n.natAbs = k at hdigits ⊢
    have heq : n = -(k : Int) := by omega
    simp [hdigits, heq]
  · rw [if_neg hneg]
    have hplain : ∀ rest, Nat.toDigits 10 n.natAbs ≠ '-' :: rest := by
      intro rest hrest
      have hdigit := Text.isDigit_of_mem_toDigits (n := n.natAbs) (hrest ▸ List.mem_cons_self)
      cases hdigit
    unfold number?
    split
    next negative cs heq =>
    split at heq
    · next rest hrest => exact absurd hrest (hplain rest)
    · cases heq
      simp only [digits_toDigits, isIntegerPart_toDigits, fraction?, exponent?, hvalue,
        List.append_nil, Bool.not_true, Bool.false_eq_true, ↓reduceIte, Option.bind_eq_bind,
        Option.bind_some, List.length_nil, Int.natCast_zero, Int.sub_zero, hhuge]
      generalize hk : n.natAbs = k
      have heq : n = (k : Int) := by omega
      simp [heq]

theorem wordToken?_int {n : Int} (hn : Value.isInt64 n = true) :
    wordToken? (toString n).toList = some (.atom (.int n)) := by
  have hnumber := number?_toString hn
  -- the three literals are no numbers
  have hne : ∀ w, number? w = none → (toString n).toList ≠ w := by
    rintro w hw rfl
    rw [hw] at hnumber
    cases hnumber
  unfold wordToken?
  rw [if_neg (hne _ rfl), if_neg (hne _ rfl), if_neg (hne _ rfl), hnumber]
  rfl

theorem spells_int {n : Int} (hn : Value.isInt64 n = true) :
    Spells (toString n).toList [.atom (.int n)] := by
  refine spells_word ?_ ?_ (wordToken?_int hn)
  · rw [Text.toList_toString_int]
    split <;> simp
  · intro c hc
    rw [Text.toList_toString_int] at hc
    split at hc
    · rcases List.mem_cons.mp hc with rfl | hc
      · rfl
      · exact not_endsWord_of_isDigit (Text.isDigit_of_mem_toDigits hc)
    · exact not_endsWord_of_isDigit (Text.isDigit_of_mem_toDigits hc)

/-! ## Strings -/

theorem digitChar_ne_quote : ∀ n < 16, Nat.digitChar n ≠ '"' ∧ Nat.digitChar n ≠ '\\' := by
  decide

/-- No part of an escaped character ends the string. -/
theorem scan?_escapedChar (c : Char) (collected rest : List Char) :
    scan? (.string collected) (escapedChar c ++ rest) =
      scan? (.string ((escapedChar c).reverse ++ collected)) rest := by
  unfold escapedChar
  split
  case h_8 =>
    split
    · next hcontrol =>
      have hhigh := digitChar_ne_quote (c.toNat / 16) (by omega)
      have hlow := digitChar_ne_quote (c.toNat % 16) (by omega)
      simp [scan?, Mode.step, hhigh, hlow]
    · simp_all [scan?, Mode.step]
  all_goals simp [scan?, Mode.step]

theorem scan?_escaped (s collected rest : List Char) :
    scan? (.string collected) (s.flatMap escapedChar ++ rest) =
      scan? (.string ((s.flatMap escapedChar).reverse ++ collected)) rest := by
  induction s generalizing collected with
  | nil => rfl
  | cons c s ih =>
    rw [List.flatMap_cons, List.append_assoc, scan?_escapedChar, ih]
    simp

/-- The two digits of a control character write its code. -/
theorem numberValue?_control : ∀ n < 32,
    Text.numberValue? 16 ['0', '0', Nat.digitChar (n / 16), Nat.digitChar (n % 16)] = some n := by
  decide

/-- An escaped character is one piece, which is decoded to the character. -/
theorem exists_piece (c : Char) : ∃ p : Piece,
    (∀ cs, pieces? (escapedChar c ++ cs) = (pieces? cs).map (p :: ·)) ∧
      ∀ ps, characters? none (p :: ps) = (characters? none ps).map (c :: ·) := by
  have hchar : ∀ d : Char, ∀ ps,
      characters? none (.char d :: ps) = (characters? none ps).map (d :: ·) := fun _ _ => rfl
  have hbind : ∀ (x : Option (List Piece)) (p : Piece),
      (x.bind fun ps => some (p :: ps)) = x.map (p :: ·) := fun x p => by cases x <;> rfl
  unfold escapedChar
  split
  case h_8 =>
    split
    · next hcontrol =>
      refine ⟨.unit c.toNat, fun cs => ?_, fun ps => ?_⟩
      · simp [pieces?, numberValue?_control c.toNat hcontrol, hbind]
      · have hhigh : isHighSurrogate c.toNat = false := by
          simp [isHighSurrogate]
          omega
        have hlow : isLowSurrogate c.toNat = false := by
          simp [isLowSurrogate]
          omega
        simp [characters?, hhigh, hlow]
    · next _ hslash _ _ _ _ _ hprintable =>
      have hplain : ¬ (c.toNat < 0x20 ∨ c = '\\') := by
        rintro (hlt | rfl)
        · exact hprintable hlt
        · exact hslash rfl
      refine ⟨.char c, fun cs => ?_, hchar c⟩
      rw [List.singleton_append, pieces?, if_neg hplain]
      · exact hbind _ _
      · exact fun _ _ _ _ _ heq _ => hslash heq
      · exact fun _ _ heq _ => hslash heq
  all_goals exact ⟨.char _, fun cs => by simp [pieces?, escape?, hbind], hchar _⟩

/-- An escaped string is read. -/
theorem stringToken?_escaped (s : List Char) :
    stringToken? (s.flatMap escapedChar) = some (.string (some (String.ofList s))) := by
  have hpieces : ∃ ps, pieces? (s.flatMap escapedChar) = some ps ∧ characters? none ps = some s := by
    induction s with
    | nil => exact ⟨[], rfl, rfl⟩
    | cons c s ih =>
      obtain ⟨ps, hps, hs⟩ := ih
      obtain ⟨p, hp, hc⟩ := exists_piece c
      exact ⟨p :: ps, by rw [List.flatMap_cons, hp, hps]; rfl, by rw [hc, hs]; rfl⟩
  obtain ⟨ps, hps, hs⟩ := hpieces
  unfold stringToken?
  rw [hps, Option.map_some, hs]
  rfl

theorem scans_string (s : String) : Scans (string s).toList [.string (some s)] := by
  intro rest
  have htoken := stringToken?_escaped s.toList
  rw [String.ofList_toList] at htoken
  have hopen : scan? .between ((string s).toList ++ rest) =
      scan? (.string []) (s.toList.flatMap escapedChar ++ '"' :: rest) := by
    simp [string, scan?, Mode.step, Mode.start, isSpace]
  rw [hopen, scan?_escaped, scan?]
  simp only [Mode.step, List.append_nil, List.reverse_reverse, htoken, ↓reduceIte, Option.map_some,
    Option.bind_eq_bind, Option.bind_some]
  cases scan? .between rest <;> rfl

/-! ## The tokens of a value -/

mutual

/-- The tokens that write a value. -/
def tokensOf : Value → List Token
  | .list items => .openList :: itemTokens items ++ [.closeList]
  | .table fields => .openTable :: fieldTokens fields ++ [.closeTable]
  | .text s => [.string (some s)]
  | v => [.atom v]

/-- The tokens of items between commas. -/
def itemTokens : List Value → List Token
  | [] => []
  | [v] => tokensOf v
  | v :: vs => tokensOf v ++ .comma :: itemTokens vs

/-- The tokens of fields between commas. -/
def fieldTokens : List (String × Value) → List Token
  | [] => []
  | [(k, v)] => .string (some k) :: .colon :: tokensOf v
  | (k, v) :: fs => .string (some k) :: .colon :: tokensOf v ++ .comma :: fieldTokens fs

end

/-- Tokens are taken one after the other. -/
theorem run?_append (state : State) (ts us : List Token) :
    run? state (ts ++ us) = (run? state ts).bind (run? · us) := by
  induction ts generalizing state with
  | nil => rfl
  | cons t ts ih =>
    rw [List.cons_append, run?, run?, Option.bind_assoc]
    congr 1
    funext next
    exact ih next

theorem run?_singleton (state : State) (t : Token) : run? state [t] = step state t := by
  rw [run?]
  cases step state t <;> rfl

theorem itemTokens_cons_cons (v w : Value) (vs : List Value) :
    itemTokens (v :: w :: vs) = tokensOf v ++ .comma :: itemTokens (w :: vs) := by
  rw [itemTokens]
  simp

theorem fieldTokens_cons_cons (k : String) (v : Value) (f : String × Value)
    (fs : List (String × Value)) :
    fieldTokens ((k, v) :: f :: fs) =
      .string (some k) :: .colon :: tokensOf v ++ .comma :: fieldTokens (f :: fs) := by
  rw [fieldTokens]
  simp

/-- Where a list may be closed, its first item is taken all the same. -/
theorem run?_valueOrClose (v : Value) (vs : List Value) (stack : List Frame) (us : List Token) :
    run? (.valueOrClose, stack) (itemTokens (v :: vs) ++ us) =
      run? (.value, stack) (itemTokens (v :: vs) ++ us) := by
  cases vs with
  | nil => cases v <;> rfl
  | cons w vs =>
    rw [itemTokens_cons_cons]
    cases v <;> rfl

theorem run?_keyOrClose (f : String × Value) (fs : List (String × Value))
    (done : List (String × Value)) (stack : List Frame) (us : List Token) :
    run? (.keyOrClose, .table done false :: stack) (fieldTokens (f :: fs) ++ us) =
      run? (.key, .table done false :: stack) (fieldTokens (f :: fs) ++ us) := by
  obtain ⟨k, v⟩ := f
  cases fs with
  | nil => rfl
  | cons g fs =>
    rw [fieldTokens_cons_cons]
    rfl

mutual

/-- The tokens of a value hand it to what is open around it. -/
theorem run?_tokensOf : (v : Value) → (stack : List Frame) →
    run? (.value, stack) (tokensOf v) = complete v stack
  | .list items, stack => run?_itemTokens items [] stack
  | .table fields, stack => run?_fieldTokens fields [] stack
  | .text _, _ => run?_singleton _ _
  | .null, _ => run?_singleton _ _
  | .bool _, _ => run?_singleton _ _
  | .int _, _ => run?_singleton _ _
  | .float, _ => run?_singleton _ _
  | .malformed, _ => run?_singleton _ _

theorem run?_itemTokens : (vs done : List Value) → (stack : List Frame) →
    run? (.valueOrClose, .list done :: stack) (itemTokens vs ++ [.closeList]) =
      complete (.list (done.reverse ++ vs)) stack
  | [], done, stack => by
    rw [itemTokens, List.nil_append, run?_singleton, List.append_nil]
    rfl
  | [v], done, stack => by
    rw [run?_valueOrClose, itemTokens, run?_append, run?_tokensOf v, complete, Option.bind_some,
      run?_singleton]
    simp [step]
  | v :: w :: vs, done, stack => by
    rw [run?_valueOrClose, itemTokens_cons_cons, List.append_assoc, run?_append, run?_tokensOf v,
      complete, Option.bind_some]
    have hrest := run?_itemTokens (w :: vs) (v :: done) stack
    rw [run?_valueOrClose] at hrest
    refine Eq.trans hrest ?_
    simp

theorem run?_fieldTokens : (fs done : List (String × Value)) → (stack : List Frame) →
    run? (.keyOrClose, .table done false :: stack) (fieldTokens fs ++ [.closeTable]) =
      complete (.table (done.reverse ++ fs)) stack
  | [], done, stack => by
    rw [fieldTokens, List.nil_append, run?_singleton, List.append_nil]
    rfl
  | [(k, v)], done, stack => by
    have hvalue := run?_tokensOf v (.member done false (some k) :: stack)
    rw [run?_keyOrClose, fieldTokens]
    show run? (.value, _) (tokensOf v ++ [.closeTable]) = _
    rw [run?_append, hvalue, complete, Option.bind_some, run?_singleton]
    simp [step, closed]
  | (k, v) :: f :: fs, done, stack => by
    have hvalue := run?_tokensOf v (.member done false (some k) :: stack)
    have hrest := run?_fieldTokens (f :: fs) ((k, v) :: done) stack
    rw [run?_keyOrClose] at hrest
    rw [run?_keyOrClose, fieldTokens_cons_cons, List.append_assoc]
    show run? (.value, _) (tokensOf v ++ (.comma :: fieldTokens (f :: fs) ++ [.closeTable])) = _
    rw [run?_append, hvalue, complete, Option.bind_some]
    refine Eq.trans hrest ?_
    simp

end

theorem ofTokens?_tokensOf (v : Value) : ofTokens? (tokensOf v) = some v := by
  unfold ofTokens?
  rw [run?_tokensOf]
  rfl

/-! ## The two layouts -/

theorem spells_keyword {w : List Char} {t : Token} (hne : w ≠ []) (hw : w.any Mode.endsWord = false)
    (ht : wordToken? w = some t) : Spells w [t] :=
  spells_word hne (fun c hc => by simpa using List.any_eq_false.mp hw c hc) ht

theorem spells_null : Spells "null".toList [.atom .null] :=
  spells_keyword (by decide) rfl rfl

theorem spells_bool (b : Bool) : Spells (atom (.bool b)).toList [.atom (.bool b)] := by
  cases b with
  | true => exact spells_keyword (by decide) rfl rfl
  | false => exact spells_keyword (by decide) rfl rfl

/-- What stands between two brackets. -/
theorem scans_bracketed {l r : Char} {t u : Token} (hl : punctuation? l = some t)
    (hr : punctuation? r = some u) (hcs : Spells cs ts) :
    Scans (l :: cs ++ [r]) (t :: ts ++ [u]) := by
  have hends : Mode.endsWord r = true := by simp [Mode.endsWord, hr]
  exact ((scans_punctuation hl).append_spells hcs).append_scans hends (scans_punctuation hr)

/-- What stands on the two sides of a comma. -/
theorem Spells.comma {ds : List Char} {us : List Token} (h : Spells cs ts) (h' : Spells ds us) :
    Spells (cs ++ ',' :: ds) (ts ++ .comma :: us) := by
  have hcomma := h.append_scans rfl (scans_punctuation (c := ',') rfl)
  have hall := hcomma.append_spells h'
  simpa using hall

/-- A key, a separator and a value. -/
theorem spells_field {k : String} {separator : List Char} (hseparator : Scans separator [.colon])
    (h : Spells cs ts) :
    Spells ((string k).toList ++ separator ++ cs) (.string (some k) :: .colon :: ts) :=
  ((scans_string k).append hseparator).append_spells h

mutual

/-- Compact text spells the value's tokens. -/
theorem spells_compact : (v : Value) → v.isPlain = true → Spells (compact v).toList (tokensOf v)
  | .list items, h => by
    have hitems := spells_compactItems items h
    have hall := (scans_bracketed (l := '[') (r := ']') rfl rfl hitems).spells
    rw [compact, tokensOf]
    simpa using hall
  | .table fields, h => by
    have hfields := spells_compactFields fields h
    have hall := (scans_bracketed (l := '\x7b') (r := '\x7d') rfl rfl hfields).spells
    rw [compact, tokensOf]
    simpa using hall
  | .text s, _ => (scans_string s).spells
  | .null, _ => spells_null
  | .bool b, _ => spells_bool b
  | .int _, h => spells_int h

theorem spells_compactItems : (vs : List Value) → Value.isPlainList vs = true →
    Spells (compactItems vs).toList (itemTokens vs)
  | [], _ => Scans.nil.spells
  | [v], h => spells_compact v (Bool.and_eq_true_iff.mp h).1
  | v :: w :: vs, h => by
    have hparts := Bool.and_eq_true_iff.mp h
    have hall := (spells_compact v hparts.1).comma (spells_compactItems (w :: vs) hparts.2)
    rw [compactItems, itemTokens_cons_cons]
    · simpa using hall
    · simp

theorem spells_compactFields : (fs : List (String × Value)) → Value.isPlainFields fs = true →
    Spells (compactFields fs).toList (fieldTokens fs)
  | [], _ => Scans.nil.spells
  | [(k, v)], h => by
    have hvalue := spells_compact v (Bool.and_eq_true_iff.mp h).1
    have hall := spells_field (k := k) (scans_punctuation (c := ':') rfl) hvalue
    rw [compactFields, fieldTokens]
    simpa using hall
  | (k, v) :: f :: fs, h => by
    have hparts := Bool.and_eq_true_iff.mp h
    have hvalue := spells_compact v hparts.1
    have hfield := spells_field (k := k) (scans_punctuation (c := ':') rfl) hvalue
    have hall := hfield.comma (spells_compactFields (f :: fs) hparts.2)
    rw [compactFields, fieldTokens_cons_cons]
    · simpa using hall
    · simp

end

theorem scans_newline (level : Nat) : Scans (newline level).toList [] := by
  have hspaces : ∀ n, Scans (List.replicate n ' ') [] := by
    intro n
    induction n with
    | zero => exact .nil
    | succ n ih => exact (scans_space (c := ' ') rfl).append ih
  have hall := (scans_space (c := '\n') rfl).append (hspaces (2 * level))
  simpa [newline] using hall

theorem Spells.newline (h : Spells cs ts) (level : Nat) :
    Spells (cs ++ (newline level).toList) ts := by
  have hbreak := scans_newline level
  have hhead : (Json.newline level).toList = '\n' :: List.replicate (2 * level) ' ' := by
    simp [Json.newline]
  rw [hhead] at hbreak ⊢
  have hall := (h.append_scans rfl hbreak).spells
  rwa [List.append_nil] at hall

theorem scans_colonSpace : Scans [':', ' '] [.colon] :=
  (scans_punctuation (c := ':') rfl).append (scans_space (c := ' ') rfl)

mutual

/-- Indented text spells the value's tokens. -/
theorem spells_prettyAt (level : Nat) : (v : Value) → v.isPlain = true →
    Spells (prettyAt level v).toList (tokensOf v)
  | .list [], _ => by
    have hall := (scans_bracketed (l := '[') (r := ']') rfl rfl Scans.nil.spells).spells
    rw [prettyAt, tokensOf, itemTokens]
    exact hall
  | .list (v :: vs), h => by
    have hitems := spells_prettyItems (level + 1) (v :: vs) h
    have hall := (scans_bracketed (l := '[') (r := ']') rfl rfl (hitems.newline level)).spells
    rw [prettyAt, tokensOf]
    simpa using hall
  | .table [], _ => by
    have hall := (scans_bracketed (l := '\x7b') (r := '\x7d') rfl rfl Scans.nil.spells).spells
    rw [prettyAt, tokensOf, fieldTokens]
    exact hall
  | .table (f :: fs), h => by
    have hfields := spells_prettyFields (level + 1) (f :: fs) h
    have hall :=
      (scans_bracketed (l := '\x7b') (r := '\x7d') rfl rfl (hfields.newline level)).spells
    rw [prettyAt, tokensOf]
    simpa using hall
  | .text s, _ => (scans_string s).spells
  | .null, _ => spells_null
  | .bool b, _ => spells_bool b
  | .int _, h => spells_int h

theorem spells_prettyItems (level : Nat) : (vs : List Value) → Value.isPlainList vs = true →
    Spells (prettyItems level vs).toList (itemTokens vs)
  | [], _ => Scans.nil.spells
  | [v], h => by
    have hvalue := spells_prettyAt level v (Bool.and_eq_true_iff.mp h).1
    have hall := (scans_newline level).append_spells hvalue
    rw [prettyItems, itemTokens]
    simpa using hall
  | v :: w :: vs, h => by
    have hparts := Bool.and_eq_true_iff.mp h
    have hvalue := (scans_newline level).append_spells (spells_prettyAt level v hparts.1)
    have hall := hvalue.comma (spells_prettyItems level (w :: vs) hparts.2)
    rw [prettyItems, itemTokens_cons_cons]
    · simpa using hall
    · simp

theorem spells_prettyFields (level : Nat) : (fs : List (String × Value)) →
    Value.isPlainFields fs = true → Spells (prettyFields level fs).toList (fieldTokens fs)
  | [], _ => Scans.nil.spells
  | [(k, v)], h => by
    have hvalue := spells_prettyAt level v (Bool.and_eq_true_iff.mp h).1
    have hall := (scans_newline level).append_spells (spells_field (k := k) scans_colonSpace hvalue)
    rw [prettyFields, fieldTokens]
    simpa using hall
  | (k, v) :: f :: fs, h => by
    have hparts := Bool.and_eq_true_iff.mp h
    have hvalue := spells_prettyAt level v hparts.1
    have hfield := (scans_newline level).append_spells (spells_field (k := k) scans_colonSpace hvalue)
    have hall := hfield.comma (spells_prettyFields level (f :: fs) hparts.2)
    rw [prettyFields, fieldTokens_cons_cons]
    · simpa using hall
    · simp

end

/-- What spells a value is parsed to it. -/
theorem parse?_of_spells {text : String} {v : Value} (h : Spells text.toList (tokensOf v)) :
    parse? text = some v := by
  have htokens : tokens? text = some (tokensOf v) := by
    have hscan := h [] (by simp)
    rw [List.append_nil] at hscan
    unfold tokens?
    rw [hscan]
    simp [scan?, Mode.finish]
  unfold parse?
  rw [htokens]
  exact ofTokens?_tokensOf v

/-- A value on one line is read back. -/
theorem parse?_compact {v : Value} (h : v.isPlain = true) : parse? (compact v) = some v :=
  parse?_of_spells (spells_compact v h)

/-- A value on several lines is read back. -/
theorem parse?_pretty {v : Value} (h : v.isPlain = true) : parse? (pretty v) = some v :=
  parse?_of_spells (spells_prettyAt 0 v h)

end Json

end ScriptExport
