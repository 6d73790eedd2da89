import Mathlib.Data.List.Forall2
import ScriptExport.Proofs.Constant.Grammar

/-!
# Numbers written as literals

How a number is written as a literal (`Writes`), from the number to the text: its digits in one of four
radices, behind the head of the radix and, but for decimal, any number of zeros; a suffix of `u` and `l`;
then each letter in either case, and separators anywhere behind the first character. The texts that write
a number are exactly the texts of literals (`exists_literal_of_writes`, `Literal.writes`), so the
evaluator reads every one of them, and no other word that starts with a digit.
-/

namespace ScriptExport.Constant

/-- The second character is the first one or its upper case. -/
def EitherCase (c d : Char) : Prop :=
  d = c ∨ d = c.toUpper

/-- The text is the characters with separators anywhere. -/
inductive Interspersed : List Char → List Char → Prop where
  | nil : Interspersed [] []
  | char {cs text : List Char} (c : Char) (h : Interspersed cs text) :
    Interspersed (c :: cs) (c :: text)
  | separator {cs text : List Char} (h : Interspersed cs text) : Interspersed cs ('\'' :: text)

/-- The text writes the number as a literal. -/
inductive Writes (n : ℕ) : List Char → Prop where
  | literal (r : Radix) (zeros : ℕ) (suffix : List Char) {first : Char} {more rest : List Char}
    (hzeros : r = .decimal → zeros = 0) (hsuffix : ∀ c ∈ suffix, c = 'u' ∨ c = 'l')
    (hcase : List.Forall₂ EitherCase
      (r.head ++ List.replicate zeros '0' ++ Nat.toDigits r.base n ++ suffix) (first :: more))
    (hrest : Interspersed more rest) : Writes n (first :: rest)

/-! ## Digits -/

/-- The number that digits write, the most significant one first. -/
def numberOf (base : ℕ) (ds : List ℕ) : ℕ :=
  ds.foldl (fun n d => n * base + d) 0

/-- Digits are written without leading zeros. -/
theorem exists_digits_of_toDigits {b : ℕ} (hb : 1 < b) (n : ℕ) :
    ∃ ds : List ℕ, Nat.toDigits b n = ds.map Nat.digitChar ∧ ds ≠ [] ∧ (∀ d ∈ ds, d < b) ∧
      numberOf b ds = n ∧ (ds = [0] ∨ ds.head? ≠ some 0) := by
  induction n using Nat.strongRecOn with
  | ind n ih =>
    rw [Nat.toDigits_eq_if hb]
    split
    · next hlt =>
      refine ⟨[n], rfl, List.cons_ne_nil _ _, by simpa using hlt, by simp [numberOf], ?_⟩
      by_cases hn : n = 0
      · exact .inl (by rw [hn])
      · exact .inr (by simpa using hn)
    · next hge =>
      have hpos : 0 < n / b := Nat.div_pos (by omega) (by omega)
      obtain ⟨ds, hds, hne, hlt, hvalue, hhead⟩ := ih (n / b) (Nat.div_lt_self (by omega) hb)
      refine ⟨ds ++ [n % b], by rw [hds, List.map_append]; rfl, by simp, ?_, ?_, .inr ?_⟩
      · intro d hd
        rcases List.mem_append.mp hd with hd | hd
        · exact hlt d hd
        · rw [List.mem_singleton.mp hd]
          exact Nat.mod_lt n (by omega)
      · have hlast : numberOf b (ds ++ [n % b]) = numberOf b ds * b + n % b := List.foldl_append
        rw [hlast, hvalue]
        exact Nat.div_add_mod' n b
      · -- the digits before the last one write `n / b`, which is not zero
        have hzero : numberOf b [0] = 0 := by simp [numberOf]
        have hfirst := hhead.resolve_left (by rintro rfl; omega)
        obtain ⟨d, ds, rfl⟩ := List.exists_cons_of_ne_nil hne
        exact hfirst

/-- Digits after those of a number other than zero. -/
theorem toDigits_append_map {b : ℕ} (hb : 1 < b) {ds : List ℕ} (hds : ∀ d ∈ ds, d < b) {n : ℕ}
    (hn : 0 < n) : Nat.toDigits b n ++ ds.map Nat.digitChar =
      Nat.toDigits b (ds.foldl (fun n d => n * b + d) n) := by
  induction ds generalizing n with
  | nil => exact List.append_nil _
  | cons d ds ih =>
    obtain ⟨hd, hds⟩ := List.forall_mem_cons.mp hds
    have hstep := Nat.toDigits_append_toDigits hb hn hd
    rw [Nat.toDigits_of_lt_base hd] at hstep
    have hpos : 0 < n * b + d := Nat.add_pos_left (Nat.mul_pos hn (by omega)) d
    rw [List.map_cons, List.append_cons, hstep, List.foldl_cons, Nat.mul_comm b n]
    exact ih hds hpos

/-- Digits are those of the number that they write, behind zeros. -/
theorem exists_zeros_of_digits {b : ℕ} (hb : 1 < b) {ds : List ℕ} (hne : ds ≠ [])
    (hds : ∀ d ∈ ds, d < b) : ∃ zeros : ℕ,
      ds.map Nat.digitChar = List.replicate zeros '0' ++ Nat.toDigits b (numberOf b ds) ∧
      (ds = [0] ∨ ds.head? ≠ some 0 → zeros = 0) := by
  induction ds with
  | nil => exact absurd rfl hne
  | cons d ds ih =>
    obtain ⟨hd, htail⟩ := List.forall_mem_cons.mp hds
    cases ds with
    | nil =>
      refine ⟨0, ?_, fun _ => rfl⟩
      have hvalue : numberOf b [d] = d := by simp [numberOf]
      rw [hvalue, Nat.toDigits_of_lt_base hd]
      rfl
    | cons d' ds =>
      cases d with
      | zero =>
        obtain ⟨zeros, hzeros, -⟩ := ih (List.cons_ne_nil _ _) htail
        have hvalue : numberOf b (0 :: d' :: ds) = numberOf b (d' :: ds) := by simp [numberOf]
        refine ⟨zeros + 1, ?_, fun h => ?_⟩
        · rw [List.map_cons, hzeros, hvalue]
          rfl
        · rcases h with h | h
          · cases h
          · exact absurd rfl h
      | succ d =>
        refine ⟨0, ?_, fun _ => rfl⟩
        have hfirst := toDigits_append_map hb htail (Nat.succ_pos d)
        have hvalue : numberOf b ((d + 1) :: d' :: ds) =
            (d' :: ds).foldl (fun n d => n * b + d) (d + 1) := by simp [numberOf]
        rw [hvalue, ← hfirst, Nat.toDigits_of_lt_base hd]
        rfl

theorem Radix.one_lt_base (r : Radix) : 1 < r.base := by cases r <;> decide

theorem Literal.value_eq_numberOf (l : Literal) : l.value = numberOf l.radix.base l.digits :=
  l.value_eq_foldl

/-! ## Letters and separators -/

/-- Upper and lower case of a digit or small letter. -/
theorem toLower_toUpper {c : Char} (hc : c.isDigit = true ∨ c.isLower = true) :
    c.toLower = c ∧ c.toUpper.toLower = c ∧ Text.isAsciiAlnum c = true ∧
      Text.isAsciiAlnum c.toUpper = true := by
  rw [Text.isDigit_iff_toNat, isLower_iff_toNat] at hc
  rcases hc with hdigit | hletter
  · obtain ⟨n, hle, hge, rfl⟩ := exists_ofNat_of_range hdigit
    interval_cases n <;> decide
  · obtain ⟨n, hle, hge, rfl⟩ := exists_ofNat_of_range hletter
    interval_cases n <;> decide

theorem toUpper_of_isDigit {c : Char} (hc : c.isDigit = true) : c.toUpper = c := by
  obtain ⟨n, hle, hge, rfl⟩ := exists_ofNat_of_range (Text.isDigit_iff_toNat.mp hc)
  interval_cases n <;> decide

theorem EitherCase.toLower_eq {c d : Char} (h : EitherCase c d)
    (hc : c.isDigit = true ∨ c.isLower = true) : d.toLower = c ∧ Text.isAsciiAlnum d = true := by
  obtain ⟨hlower, hupper, halnum, halnum'⟩ := toLower_toUpper hc
  rcases h with rfl | rfl
  · exact ⟨hlower, halnum⟩
  · exact ⟨hupper, halnum'⟩

theorem eitherCase_toLower (d : Char) : EitherCase d.toLower d := by
  by_cases hupper : 65 ≤ d.toNat ∧ d.toNat ≤ 90
  · obtain ⟨n, hle, hge, rfl⟩ := exists_ofNat_of_range hupper
    refine .inr ?_
    interval_cases n <;> decide
  · refine .inl ?_
    unfold Char.toLower
    rw [dif_neg]
    simpa [UInt32.le_iff_toNat_le, ← Char.toNat_val] using hupper

namespace Interspersed

theorem filter (text : List Char) : Interspersed (text.filter (· != '\'')) text := by
  induction text with
  | nil => exact .nil
  | cons c text ih =>
    by_cases hc : c = '\''
    · rw [hc, List.filter_cons_of_neg (by decide)]
      exact ih.separator
    · rw [List.filter_cons_of_pos (by simpa using hc)]
      exact ih.char c

variable {cs text : List Char}

/-- Without separators the digits are left. -/
theorem filter_eq (h : Interspersed cs text) (hcs : '\'' ∉ cs) :
    text.filter (· != '\'') = cs := by
  induction h with
  | nil => rfl
  | char c _ ih =>
    obtain ⟨hc, hcs⟩ := List.ne_and_not_mem_of_not_mem_cons hcs
    rw [List.filter_cons_of_pos (by simpa using hc.symm), ih hcs]
  | separator _ ih => rw [List.filter_cons_of_neg (by decide), ih hcs]

theorem isLiteralChar (h : Interspersed cs text) (hcs : ∀ c ∈ cs, Text.isAsciiAlnum c = true) :
    ∀ c ∈ text, Constant.isLiteralChar c = true := by
  induction h with
  | nil => exact List.forall_mem_nil _
  | char c _ ih =>
    obtain ⟨hc, hcs⟩ := List.forall_mem_cons.mp hcs
    refine List.forall_mem_cons.mpr ⟨?_, ih hcs⟩
    rw [Constant.isLiteralChar, hc]
    rfl
  | separator _ ih => exact List.forall_mem_cons.mpr ⟨rfl, ih hcs⟩

end Interspersed

/-! ## Literals -/

/-- The characters that a number is written with before letters are raised. -/
theorem isDigit_or_isLower_of_mem {r : Radix} {zeros : ℕ} {ds : List ℕ} {suffix : List Char}
    (hds : ∀ d ∈ ds, d < r.base) (hsuffix : ∀ c ∈ suffix, c = 'u' ∨ c = 'l') :
    ∀ c ∈ r.head ++ List.replicate zeros '0' ++ ds.map Nat.digitChar ++ suffix,
      c.isDigit = true ∨ c.isLower = true := by
  have hdigit : ∀ d < 16, (Nat.digitChar d).isDigit = true ∨ (Nat.digitChar d).isLower = true := by
    decide
  have hhead : ∀ c ∈ r.head, c.isDigit = true ∨ c.isLower = true := by
    cases r <;> simp [Radix.head]
  intro c hc
  simp only [List.mem_append] at hc
  rcases hc with ((hc | hc) | hc) | hc
  · exact hhead c hc
  · rw [List.eq_of_mem_replicate hc]
    exact .inl rfl
  · obtain ⟨d, hd, rfl⟩ := List.mem_map.mp hc
    exact hdigit d (Nat.lt_of_lt_of_le (hds d hd) r.base_le)
  · rcases hsuffix c hc with rfl | rfl
    · exact .inr rfl
    · exact .inr rfl

theorem isDigit_of_head? {r : Radix} {zeros : ℕ} {ds : List ℕ} {suffix : List Char} {c : Char}
    (hzeros : r = .decimal → zeros = 0) (hne : ds ≠ []) (hds : ∀ d ∈ ds, d < r.base)
    (h : (r.head ++ List.replicate zeros '0' ++ ds.map Nat.digitChar ++ suffix).head? = some c) :
    c.isDigit = true := by
  cases r with
  | binary => cases h; rfl
  | octal => cases h; rfl
  | hexadecimal => cases h; rfl
  | decimal =>
    have hdigit : ∀ d < 10, (Nat.digitChar d).isDigit = true := by decide
    obtain ⟨d, ds, rfl⟩ := List.exists_cons_of_ne_nil hne
    rw [hzeros rfl] at h
    cases h
    exact hdigit d (hds d List.mem_cons_self)

theorem map_toLower_of_forall₂ {lower written : List Char}
    (h : List.Forall₂ EitherCase lower written)
    (hlower : ∀ c ∈ lower, c.isDigit = true ∨ c.isLower = true) :
    written.map Char.toLower = lower ∧ ∀ d ∈ written, Text.isAsciiAlnum d = true := by
  induction h with
  | nil => exact ⟨rfl, List.forall_mem_nil _⟩
  | cons hcase _ ih =>
    obtain ⟨hc, hlower⟩ := List.forall_mem_cons.mp hlower
    obtain ⟨hlow, halnum⟩ := hcase.toLower_eq hc
    obtain ⟨hmap, hall⟩ := ih hlower
    exact ⟨by rw [List.map_cons, hlow, hmap], List.forall_mem_cons.mpr ⟨halnum, hall⟩⟩

theorem numberOf_replicate_append (base zeros : ℕ) (ds : List ℕ) :
    numberOf base (List.replicate zeros 0 ++ ds) = numberOf base ds := by
  induction zeros with
  | zero => rfl
  | succ zeros ih =>
    rw [← ih]
    simp [numberOf, List.replicate_succ]

/-- A text that writes a number is a literal of that value. -/
theorem exists_literal_of_writes {n : ℕ} {text : List Char} (h : Writes n text) :
    ∃ l : Literal, l.text = text ∧ l.value = n := by
  cases h with
  | @literal r zeros suffix first more rest hzeros hsuffix hcase hrest =>
    obtain ⟨ds, hdigits, hne, hlt, hvalue, hhead⟩ := exists_digits_of_toDigits r.one_lt_base n
    rw [hdigits] at hcase
    obtain ⟨hlower, halnum⟩ :=
      map_toLower_of_forall₂ hcase (isDigit_or_isLower_of_mem hlt hsuffix)
    obtain ⟨hfirst, hmore⟩ := List.forall_mem_cons.mp halnum
    have hseparator : ∀ c, Text.isAsciiAlnum c = true → c ≠ '\'' := by
      rintro c hc rfl
      exact absurd hc (by decide)
    have hfilter : (first :: rest).filter (· != '\'') = first :: more := by
      rw [List.filter_cons_of_pos (by simpa using hseparator first hfirst),
        hrest.filter_eq fun hmem => hseparator _ (hmore _ hmem) rfl]
    refine ⟨⟨first, rest, r, List.replicate zeros 0 ++ ds, suffix, ?_, hrest.isLiteralChar hmore, ?_,
      ?_, ?_, hsuffix, ?_⟩, rfl, ?_⟩
    · obtain ⟨c, cs, hc, -, hcons⟩ := List.forall₂_cons_right_iff.mp hcase
      have hdigit := isDigit_of_head? hzeros hne hlt (congrArg List.head? hcons)
      rcases hc with rfl | rfl
      · exact hdigit
      · rw [toUpper_of_isDigit hdigit]
        exact hdigit
    · simp [hne]
    · intro d hd
      rcases List.mem_append.mp hd with hd | hd
      · rw [List.eq_of_mem_replicate hd]
        exact r.base_pos
      · exact hlt d hd
    · intro hr
      rw [hzeros hr]
      exact hhead
    · rw [hfilter, hlower, List.map_append, List.map_replicate, ← List.append_assoc]
      rfl
    · rw [Literal.value_eq_numberOf, numberOf_replicate_append, hvalue]

/-- A literal writes its value. -/
theorem Literal.writes (l : Literal) : Writes l.value l.text := by
  obtain ⟨zeros, hzeros, hplain⟩ :=
    exists_zeros_of_digits l.radix.one_lt_base l.digits_ne_nil l.digits_lt
  rw [← l.value_eq_numberOf] at hzeros
  have hfirst : l.first ≠ '\'' := by
    intro heq
    have hdigit := l.first_digit
    rw [heq] at hdigit
    exact absurd hdigit (by decide)
  have hspelled := l.spelled
  rw [List.filter_cons_of_pos (by simpa using hfirst), hzeros, ← List.append_assoc] at hspelled
  refine .literal l.radix zeros l.suffix (fun hr => hplain (l.plain_decimal hr)) l.suffix_chars ?_
    (Interspersed.filter l.rest)
  rw [← hspelled, List.forall₂_map_left_iff, List.forall₂_same]
  exact fun d _ => eitherCase_toLower d

/-! ## Evaluation -/

section Evaluation

theorem eq_ok_of_toOption {ε α : Type} {x : Except ε α} {a : α} (h : x.toOption = some a) :
    x = .ok a := by
  cases x with
  | error err => cases h
  | ok b => exact congrArg _ (Option.some.inj h)

theorem exists_error_of_toOption {ε α : Type} {x : Except ε α} (h : x.toOption = none) :
    ∃ err, x = .error err := by
  cases x with
  | error err => exact ⟨err, rfl⟩
  | ok b => cases h

variable {lookup : String → Option Int64}

/-- A literal evaluates to its value unless that is too large. -/
theorem toOption_evaluate_literal (l : Literal) :
    (evaluate lookup (String.ofList l.text)).toOption =
      if l.value < 2 ^ 63 then some (Int64.ofInt l.value) else none := by
  have hspells : Spells ((Expr.literal l).lexemes 0) (String.ofList l.text).toList := by
    have hone := Spells.lexeme (.literal l) .nil
    rwa [List.append_nil, ← String.toList_ofList (l := Lexeme.text _)] at hone
  have hnesting : (Expr.literal l).nesting 0 < maxDepth := Nat.zero_lt_succ _
  rw [evaluate_of_spells hspells hnesting]
  simp [Expr.lexemes, Lexeme.fits, Expr.eval, Except.toOption]

/-- A word that starts with a digit and has a value is a literal. -/
theorem exists_literal_of_evaluate {c : Char} {cs : List Char} {v : Int64} (hc : c.isDigit = true)
    (hcs : ∀ d ∈ cs, isLiteralChar d = true)
    (h : evaluate lookup (String.ofList (c :: cs)) = .ok v) : ∃ l : Literal, l.text = c :: cs := by
  have hstart : Mode.between.step c = .ok ([], .number [c]) := Mode.start_digit hc
  unfold evaluate at h
  obtain ⟨ts, htokens, -⟩ := bind_eq_ok.mp h
  unfold tokens at htokens
  rw [String.toList_ofList, scan_cons_nil hstart, ← List.append_nil cs, scan_number_append hcs,
    scan_number_end (by simp)] at htokens
  obtain ⟨w, hread, -⟩ := bind_eq_ok.mp htokens
  rw [List.reverse_append, List.reverse_reverse] at hread
  exact exists_literal_of_readLiteral hc hcs hread

end Evaluation

/-- **Literals are read exactly.** A text that writes a number is evaluated to that number if it is less
than 2^63, and fails otherwise. A word of letters, digits and separators behind a digit that writes no
number fails as well. -/
theorem literals_evaluated_exactly (lookup : String → Option Int64) :
    (∀ n text, Writes n text →
      (n < 2 ^ 63 → ∃ v, evaluate lookup (String.ofList text) = .ok v ∧ v.toInt = n) ∧
      (2 ^ 63 ≤ n → ∃ err, evaluate lookup (String.ofList text) = .error err)) ∧
    ∀ c cs, c.isDigit = true → (∀ d ∈ cs, isLiteralChar d = true) → (∀ n, ¬ Writes n (c :: cs)) →
      ∃ err, evaluate lookup (String.ofList (c :: cs)) = .error err := by
  constructor
  · intro n text hwrites
    obtain ⟨l, rfl, rfl⟩ := exists_literal_of_writes hwrites
    have heval : (evaluate lookup (String.ofList l.text)).toOption = _ := toOption_evaluate_literal l
    constructor
    · intro hlt
      rw [if_pos hlt] at heval
      exact ⟨_, eq_ok_of_toOption heval, Int64.toInt_ofInt_of_le (by omega) (by omega)⟩
    · intro hge
      rw [if_neg (Nat.not_lt.mpr hge)] at heval
      exact exists_error_of_toOption heval
  · intro c cs hc hcs hnone
    cases h : evaluate lookup (String.ofList (c :: cs)) with
    | error err => exact ⟨err, rfl⟩
    | ok v =>
      obtain ⟨l, hl⟩ := exists_literal_of_evaluate hc hcs h
      exact absurd (hl ▸ l.writes) (hnone l.value)

/-- Letters in both cases and a separator in the head; a number that is too large; a digit that the radix
does not have. -/
theorem literals_evaluated_exactly_assorted :
    let lookup : String → Option Int64 := fun _ => none
    (Writes 255 "0'X0fFuL".toList ∧ ∃ v, evaluate lookup "0'X0fFuL" = .ok v ∧ v.toInt = 255) ∧
    (Writes (2 ^ 63) "9223372036854775808".toList ∧
      ∃ err, evaluate lookup "9223372036854775808" = .error err) ∧
    (∀ n, ¬ Writes n "08".toList) ∧ ∃ err, evaluate lookup "08" = .error err := by
  intro lookup
  obtain ⟨hreads, hrefuses⟩ := literals_evaluated_exactly lookup
  have hlower : ∀ c, EitherCase c c := fun c => .inl rfl
  have hupper : ∀ c, EitherCase c c.toUpper := fun c => .inr rfl
  have hhex : Writes 255 "0'X0fFuL".toList := by
    have hrest : Interspersed ['X', '0', 'f', 'F', 'u', 'L'] ['\'', 'X', '0', 'f', 'F', 'u', 'L'] :=
      .separator (.char _ (.char _ (.char _ (.char _ (.char _ (.char _ .nil))))))
    refine .literal .hexadecimal 1 ['u', 'l'] (fun h => ?_) (by simp) ?_ hrest
    · cases h
    · exact .cons (hlower _) <| .cons (hupper _) <| .cons (hlower _) <| .cons (hlower _) <|
        .cons (hupper _) <| .cons (hlower _) <| .cons (hupper _) .nil
  have hlarge : Writes (2 ^ 63) "9223372036854775808".toList := by
    have htext : "9223372036854775808".toList = '9' :: ['2', '2', '3', '3', '7', '2', '0', '3', '6', '8',
        '5', '4', '7', '7', '5', '8', '0', '8'] := by decide
    have hdigits : Nat.toDigits 10 (2 ^ 63) = "9223372036854775808".toList := by decide
    rw [htext] at hdigits ⊢
    refine .literal .decimal 0 [] (fun _ => rfl) (List.forall_mem_nil _) ?_ (Interspersed.filter _)
    show List.Forall₂ EitherCase (Nat.toDigits 10 (2 ^ 63) ++ []) _
    rw [hdigits]
    exact List.forall₂_same.mpr fun c _ => hlower c
  have hoctal : ∀ n, ¬ Writes n "08".toList := by
    intro n hwrites
    obtain ⟨l, htext, -⟩ := exists_literal_of_writes hwrites
    have hsplit := l.splitRadix_spelled
    rw [← l.literalBody_text, htext] at hsplit
    have hbase : 8 = l.radix.base := congrArg Prod.fst hsplit
    have hdigits : ['8'] = l.digits.map Nat.digitChar := congrArg Prod.snd hsplit
    have hne : ∀ d < 8, Nat.digitChar d ≠ '8' := by decide
    obtain ⟨d, hd, hchar⟩ := List.mem_map.mp (hdigits ▸ List.mem_singleton_self '8')
    exact hne d (hbase ▸ l.digits_lt d hd) hchar
  exact ⟨⟨hhex, (hreads _ _ hhex).1 (by decide)⟩, ⟨hlarge, (hreads _ _ hlarge).2 (Nat.le_refl _)⟩,
    hoctal, hrefuses '0' ['8'] rfl (List.all_eq_true.mp rfl) hoctal⟩

end ScriptExport.Constant
