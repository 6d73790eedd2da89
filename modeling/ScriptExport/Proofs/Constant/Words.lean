import Mathlib.Data.Nat.Digits.Defs
import Mathlib.Tactic.IntervalCases
import ScriptExport.Constant.Evaluate

/-!
# Literals and names

The words of constant expressions and what they stand for. A `Literal` is a number written in one of
four radices, with the digits, the suffix and the separators that its text consists of; reading the
text gives its value where it is a 64-bit one, and no other text can be read. An `Identifier` is a
sequence of segments with `::` between them; it is looked up as it stands, without a leading `::`, and
then by its last segment.
-/

namespace ScriptExport.Constant

/-! ## Literals -/

/-- The radices of integer literals. -/
inductive Radix where
  | binary
  | octal
  | decimal
  | hexadecimal
deriving DecidableEq, Repr

namespace Radix

/-- The number of digits. -/
def base : Radix → ℕ
  | binary => 2
  | octal => 8
  | decimal => 10
  | hexadecimal => 16

/-- What stands before the digits. -/
def head : Radix → List Char
  | binary => ['0', 'b']
  | octal => ['0']
  | decimal => []
  | hexadecimal => ['0', 'x']

theorem base_pos (r : Radix) : 0 < r.base := by cases r <;> decide

theorem base_le (r : Radix) : r.base ≤ 16 := by cases r <;> decide

end Radix

/-- The text of an integer literal and the parts it consists of. Letters may be in either case, and
separators may stand anywhere behind the first digit. -/
structure Literal where
  first : Char
  rest : List Char
  radix : Radix
  /-- The most significant digit first. -/
  digits : List ℕ
  suffix : List Char
  first_digit : first.isDigit = true
  rest_chars : ∀ c ∈ rest, isLiteralChar c = true
  digits_ne_nil : digits ≠ []
  digits_lt : ∀ d ∈ digits, d < radix.base
  /-- A decimal number other than 0 does not start with 0. -/
  plain_decimal : radix = .decimal → digits = [0] ∨ digits.head? ≠ some 0
  suffix_chars : ∀ c ∈ suffix, c = 'u' ∨ c = 'l'
  spelled : ((first :: rest).filter (· != '\'')).map Char.toLower =
    radix.head ++ digits.map Nat.digitChar ++ suffix

namespace Literal

/-- The literal as it is written. -/
def text (l : Literal) : List Char :=
  l.first :: l.rest

/-- The number that the digits write. -/
def value (l : Literal) : ℕ :=
  Nat.ofDigits l.radix.base l.digits.reverse

end Literal

theorem digitValue?_digitChar {radix d : ℕ} (hd : d < radix) (hradix : radix ≤ 16) :
    digitValue? radix (Nat.digitChar d) = some d := by
  have hvalue : ∀ d < 16,
      (if (Nat.digitChar d).isDigit then (Nat.digitChar d).toNat - '0'.toNat
        else if (Nat.digitChar d).isLower then (Nat.digitChar d).toNat - 'a'.toNat + 10
        else radix) = d := by
    intro d hd
    interval_cases d <;> rfl
  unfold digitValue?
  dsimp only
  rw [hvalue d (by omega), if_pos hd]

/-- A character in a range is one of its code points. -/
theorem exists_ofNat_of_range {c : Char} {lo hi : ℕ} (hc : lo ≤ c.toNat ∧ c.toNat ≤ hi) :
    ∃ n, lo ≤ n ∧ n ≤ hi ∧ c = Char.ofNat n :=
  ⟨c.toNat, hc.1, hc.2, (Char.ofNat_toNat c).symm⟩

theorem eq_digitChar_of_isDigit {c : Char} (h : c.isDigit = true) :
    c = Nat.digitChar (c.toNat - '0'.toNat) := by
  have hrange : 48 ≤ c.toNat ∧ c.toNat ≤ 57 := Char.isDigit_iff_toNat.mp h
  obtain ⟨n, hle, hge, rfl⟩ := exists_ofNat_of_range hrange
  interval_cases n <;> rfl

theorem isLower_iff_toNat {c : Char} : c.isLower = true ↔ 97 ≤ c.toNat ∧ c.toNat ≤ 122 := by
  have hrange : c.isLower = (decide ('a'.val ≤ c.val) && decide (c.val ≤ 'z'.val)) := rfl
  rw [hrange]
  simp [UInt32.le_iff_toNat_le, ← Char.toNat_val]

theorem eq_digitChar_of_isLower {c : Char} (h : c.isLower = true)
    (hlt : c.toNat - 'a'.toNat + 10 < 16) : c = Nat.digitChar (c.toNat - 'a'.toNat + 10) := by
  have hle : 97 ≤ c.toNat := (isLower_iff_toNat.mp h).1
  have hge : c.toNat ≤ 102 := by
    change c.toNat - 97 + 10 < 16 at hlt
    omega
  obtain ⟨n, hle, hge, rfl⟩ := exists_ofNat_of_range ⟨hle, hge⟩
  interval_cases n <;> rfl

/-- A digit is the character of its value. -/
theorem eq_digitChar_of_digitValue? {radix d : ℕ} {c : Char} (hradix : radix ≤ 16)
    (h : digitValue? radix c = some d) : d < radix ∧ c = Nat.digitChar d := by
  unfold digitValue? at h
  dsimp only at h
  by_cases hdigit : c.isDigit = true
  · rw [if_pos hdigit] at h
    obtain ⟨hlt, hd⟩ := Option.ite_none_right_eq_some.mp h
    cases hd
    exact ⟨hlt, eq_digitChar_of_isDigit hdigit⟩
  · rw [if_neg hdigit] at h
    by_cases hlower : c.isLower = true
    · rw [if_pos hlower] at h
      obtain ⟨hlt, hd⟩ := Option.ite_none_right_eq_some.mp h
      cases hd
      exact ⟨hlt, eq_digitChar_of_isLower hlower (by omega)⟩
    · rw [if_neg hlower, if_neg (Nat.lt_irrefl _)] at h
      cases h

theorem le_foldl_digits {radix : ℕ} (hpos : 0 < radix) (ds : List ℕ) (acc : ℕ) :
    acc ≤ ds.foldl (fun n d => n * radix + d) acc := by
  induction ds generalizing acc with
  | nil => exact Nat.le_refl acc
  | cons d ds ih =>
    have hstep : acc ≤ acc * radix + d :=
      Nat.le_trans (Nat.le_mul_of_pos_right acc hpos) (Nat.le_add_right _ d)
    exact Nat.le_trans hstep (ih (acc * radix + d))

/-- Digits after `acc` are read as the number they write, if it is below the bound. -/
theorem readDigits_map {radix : ℕ} (hpos : 0 < radix) (hradix : radix ≤ 16) (ds : List ℕ)
    (hds : ∀ d ∈ ds, d < radix) (acc : ℕ) (hacc : acc < UInt64.size) :
    (readDigits radix acc (ds.map Nat.digitChar)).toOption =
      if ds.foldl (fun n d => n * radix + d) acc < UInt64.size
      then some (ds.foldl (fun n d => n * radix + d) acc) else none := by
  induction ds generalizing acc with
  | nil => rw [List.foldl_nil, if_pos hacc]; rfl
  | cons d ds ih =>
    obtain ⟨hd, hds⟩ := List.forall_mem_cons.mp hds
    rw [List.map_cons, readDigits, digitValue?_digitChar hd hradix, List.foldl_cons]
    dsimp only
    by_cases hn : acc * radix + d < UInt64.size
    · rw [if_pos hn, ih hds _ hn]
    · rw [if_neg hn, if_neg]
      · rfl
      · have := le_foldl_digits hpos ds (acc * radix + d)
        omega

theorem exists_digits_of_readDigits {radix : ℕ} (hradix : radix ≤ 16) {cs : List Char} {acc n : ℕ}
    (h : readDigits radix acc cs = .ok n) :
    ∃ ds : List ℕ, cs = ds.map Nat.digitChar ∧ ∀ d ∈ ds, d < radix := by
  induction cs generalizing acc with
  | nil => exact ⟨[], rfl, by simp⟩
  | cons c cs ih =>
    rw [readDigits] at h
    split at h
    · cases h
    · next d hdigit =>
      dsimp only at h
      split at h
      · obtain ⟨hd, hc⟩ := eq_digitChar_of_digitValue? hradix hdigit
        obtain ⟨ds, hcs, hds⟩ := ih h
        exact ⟨d :: ds, by rw [hc, hcs]; rfl, List.forall_mem_cons.mpr ⟨hd, hds⟩⟩
      · cases h

namespace Literal

theorem value_eq_foldl (l : Literal) :
    l.value = l.digits.foldl (fun n d => n * l.radix.base + d) 0 := by
  rw [value, Nat.ofDigits_eq_foldr, List.foldr_reverse]
  congr 1
  funext n d
  simp [Nat.add_comm, Nat.mul_comm]

/-- What is left of the text is the head of the radix and the digits. -/
theorem literalBody_text (l : Literal) :
    literalBody l.text = l.radix.head ++ l.digits.map Nat.digitChar := by
  have hkeep : ∀ d < 16, (Nat.digitChar d == 'u' || Nat.digitChar d == 'l') = false := by decide
  obtain ⟨ds, d, hds⟩ := List.eq_nil_or_concat l.digits |>.resolve_left l.digits_ne_nil
  have hd : d < 16 :=
    Nat.lt_of_lt_of_le (l.digits_lt d (by simp [hds])) l.radix.base_le
  unfold literalBody text
  dsimp only
  rw [l.spelled, List.reverse_append, List.dropWhile_append_of_pos, hds]
  · rw [List.concat_eq_append, List.map_append, ← List.append_assoc, List.reverse_append,
      List.map_singleton, List.reverse_singleton, List.singleton_append,
      List.dropWhile_cons_of_neg (by rw [hkeep d hd]; decide)]
    simp
  · intro c hc
    rcases l.suffix_chars c (List.mem_reverse.mp hc) with rfl | rfl <;> rfl

/-- The radix of a literal is found. -/
theorem splitRadix_spelled (l : Literal) :
    splitRadix (l.radix.head ++ l.digits.map Nat.digitChar) =
      (l.radix.base, l.digits.map Nat.digitChar) := by
  obtain ⟨d, ds, hds⟩ := List.exists_cons_of_ne_nil l.digits_ne_nil
  have hlt : d < l.radix.base := l.digits_lt d (by simp [hds])
  have hplain := l.plain_decimal
  rw [hds] at hplain ⊢
  generalize l.radix = radix at hlt hplain ⊢
  cases radix with
  | binary => rfl
  | hexadecimal => rfl
  | octal =>
    have hd : ∀ d < 8, Nat.digitChar d ≠ 'x' ∧ Nat.digitChar d ≠ 'b' := by decide
    obtain ⟨hx, hb⟩ := hd d hlt
    show splitRadix ('0' :: Nat.digitChar d :: ds.map Nat.digitChar) = _
    unfold splitRadix
    split <;> simp_all [Radix.base]
  | decimal =>
    rcases hplain rfl with hzero | hhead
    · cases hzero
      rfl
    · have hd : ∀ d < 10, d ≠ 0 → Nat.digitChar d ≠ '0' := by decide
      have hne := hd d hlt (by simpa using hhead)
      show splitRadix (Nat.digitChar d :: ds.map Nat.digitChar) = _
      unfold splitRadix
      split <;> simp_all [Radix.base]

/-- Reading a literal gives its value, if it is a 64-bit one. -/
theorem readLiteral_text (l : Literal) : (readLiteral l.text).toOption = checked l.value := by
  have hread := readDigits_map l.radix.base_pos l.radix.base_le l.digits l.digits_lt 0 (by decide)
  rw [← value_eq_foldl] at hread
  have hne : (l.digits.map Nat.digitChar).isEmpty = false := by simp [l.digits_ne_nil]
  unfold readLiteral
  rw [literalBody_text, splitRadix_spelled]
  dsimp only
  rw [hne, if_neg Bool.false_ne_true]
  by_cases hlt : l.value < UInt64.size
  · rw [if_pos hlt] at hread
    cases hdigits : readDigits l.radix.base 0 (l.digits.map Nat.digitChar) with
    | error fault => rw [hdigits] at hread; cases hread
    | ok n =>
      rw [hdigits] at hread
      obtain rfl : n = l.value := Option.some.inj hread
      dsimp only
      cases checked (l.value : ℤ) <;> rfl
  · rw [if_neg hlt] at hread
    have hlarge : checked l.value = none := by
      unfold checked
      rw [if_neg]
      have hmax : Int64.maxValue.toInt = 2 ^ 63 - 1 := rfl
      have hsize : UInt64.size = 2 ^ 64 := rfl
      omega
    rw [hlarge]
    cases hdigits : readDigits l.radix.base 0 (l.digits.map Nat.digitChar) with
    | error fault => rfl
    | ok n => rw [hdigits] at hread; cases hread

end Literal

/-- A text is the head of its radix and digits. -/
theorem splitRadix_spec (body : List Char) :
    ∃ r : Radix, (splitRadix body).1 = r.base ∧ body = r.head ++ (splitRadix body).2 ∧
      (r = .decimal → ∀ c cs, (splitRadix body).2 ≠ '0' :: c :: cs) := by
  fun_cases splitRadix body with
  | case1 cs => exact ⟨.hexadecimal, rfl, rfl, by simp⟩
  | case2 cs => exact ⟨.binary, rfl, rfl, by simp⟩
  | case3 c cs hx hb => exact ⟨.octal, rfl, rfl, by simp⟩
  | case4 _ hx hb hzero => exact ⟨.decimal, rfl, rfl, fun _ => hzero⟩

/-- Nothing but literals can be read. -/
theorem exists_literal_of_readLiteral {c : Char} {cs : List Char} {v : Int64}
    (hc : c.isDigit = true) (hcs : ∀ d ∈ cs, isLiteralChar d = true)
    (h : readLiteral (c :: cs) = .ok v) : ∃ l : Literal, l.text = c :: cs := by
  obtain ⟨r, hbase, hbody, hdecimal⟩ := splitRadix_spec (literalBody (c :: cs))
  unfold readLiteral at h
  dsimp only at h
  split at h
  case isTrue => cases h
  case isFalse hne =>
    rw [hbase] at h
    cases hdigits : readDigits r.base 0 (splitRadix (literalBody (c :: cs))).2 with
    | error fault => rw [hdigits] at h; cases h
    | ok n =>
      obtain ⟨ds, hds, hlt⟩ := exists_digits_of_readDigits r.base_le hdigits
      rw [hds] at hbody hdecimal hne
      refine ⟨⟨c, cs, r, ds, (((((c :: cs).filter (· != '\'')).map Char.toLower).reverse.takeWhile
        (fun c => c == 'u' || c == 'l')).reverse), hc, hcs, ?_, hlt, ?_, ?_, ?_⟩, rfl⟩
      · rintro rfl
        exact hne rfl
      · intro hr
        match ds, hdecimal hr with
        | [], _ => exact absurd rfl hne
        | [0], _ => exact .inl rfl
        | 0 :: d :: ds, hzero => exact absurd rfl (hzero _ _)
        | (d + 1) :: ds, _ => exact .inr (by simp)
      · intro d hd
        have hsuffix := List.all_eq_true.mp List.all_takeWhile d (List.mem_reverse.mp hd)
        simpa using hsuffix
      · rw [← hbody]
        unfold literalBody
        dsimp only
        rw [← List.reverse_append, List.takeWhile_append_dropWhile, List.reverse_reverse]

/-! ## Names -/

/-- What a name may start with: a letter, a `_`, or `::`. -/
def startsName : List (List Char) → Bool
  | (c :: _) :: _ => Text.isLetter c || c == '_'
  | [] :: _ :: _ => true
  | _ => false

/-- A name with its segments; those may be empty. -/
structure Identifier where
  segments : List (List Char)
  chars : ∀ s ∈ segments, ∀ c ∈ s, isNameChar c = true
  starts : startsName segments = true

namespace Identifier

/-- The name as it is written. -/
def text (i : Identifier) : List Char :=
  Text.joinChars [':', ':'] i.segments

/-- The name without `::` before it. -/
def name (i : Identifier) : String :=
  String.ofList (Text.joinChars [':', ':'] (i.segments.dropWhile List.isEmpty))

/-- What stands after the last `::`. -/
def last (i : Identifier) : String :=
  String.ofList (i.segments.getLastD [])

end Identifier

section Segments

variable {s : List Char} (hs : ':' ∉ s)

include hs

theorem untilColons_append (rest : List Char) :
    Text.untilColons (s ++ ':' :: ':' :: rest) = s := by
  induction s with
  | nil => rfl
  | cons c s ih =>
    obtain ⟨hc, hs⟩ := List.ne_and_not_mem_of_not_mem_cons hs
    rw [List.cons_append, Text.untilColons_cons hc.symm, ih hs]

theorem hasColons_segment : Text.hasColons s = false := by
  induction s with
  | nil => rfl
  | cons c s ih =>
    obtain ⟨hc, hs⟩ := List.ne_and_not_mem_of_not_mem_cons hs
    rw [Text.hasColons_cons hc.symm, ih hs]

end Segments

theorem hasColons_append (s rest : List Char) :
    Text.hasColons (s ++ ':' :: ':' :: rest) = true := by
  induction s with
  | nil => rfl
  | cons c s ih =>
    rw [List.cons_append]
    unfold Text.hasColons
    split
    · rfl
    · next heq =>
      cases heq
      exact ih
    · next heq => cases heq

/-- Leading `::` are empty segments. -/
theorem dropColons_joinChars {ss : List (List Char)} (h : ∀ s ∈ ss, ':' ∉ s) :
    Text.dropColons (Text.joinChars [':', ':'] ss) =
      Text.joinChars [':', ':'] (ss.dropWhile List.isEmpty) := by
  induction ss with
  | nil => rfl
  | cons s ss ih =>
    obtain ⟨hs, hss⟩ := List.forall_mem_cons.mp h
    cases s with
    | nil =>
      cases ss with
      | nil => rfl
      | cons t ss => exact ih hss
    | cons c cs =>
      obtain ⟨hc, -⟩ := List.ne_and_not_mem_of_not_mem_cons hs
      have hhead : ∃ more, Text.joinChars [':', ':'] ((c :: cs) :: ss) = c :: more := by
        cases ss with
        | nil => exact ⟨cs, rfl⟩
        | cons t ss => exact ⟨_, rfl⟩
      obtain ⟨more, hmore⟩ := hhead
      rw [List.dropWhile_cons_of_neg (by simp), hmore, Text.dropColons_cons hc.symm]

theorem not_mem_of_isNameChar {s : List Char} (h : ∀ c ∈ s, isNameChar c = true) : ':' ∉ s := by
  intro hmem
  have hcolon := h ':' hmem
  exact absurd hcolon (by decide)

namespace Identifier

theorem colon_not_mem (i : Identifier) : ∀ s ∈ i.segments, ':' ∉ s := fun s hs =>
  not_mem_of_isNameChar (i.chars s hs)

theorem dropColons_text (i : Identifier) : String.ofList (Text.dropColons i.text) = i.name :=
  congrArg String.ofList (dropColons_joinChars i.colon_not_mem)

/-- A name with `::` in it ends with its last segment, and any other is its last segment. -/
theorem last_eq (i : Identifier) :
    i.last = if Text.hasColons i.name.toList then Text.lastSegment i.name else i.name := by
  have hsplit := List.takeWhile_append_dropWhile (p := List.isEmpty) (l := i.segments)
  have hcolon := i.colon_not_mem
  unfold name last Text.lastSegment Text.lastSegmentChars
  rw [String.toList_ofList]
  rcases List.eq_nil_or_concat (i.segments.dropWhile List.isEmpty) with hnil | ⟨ss, s, hss⟩
  · -- there are empty segments only
    have hlast : i.segments.getLastD [] = [] := by
      rw [List.getLastD_eq_getLast?]
      cases hlast : i.segments.getLast? with
      | none => rfl
      | some s =>
        have hall := List.all_takeWhile (p := List.isEmpty) (l := i.segments)
        rw [hnil, List.append_nil] at hsplit
        rw [hsplit] at hall
        exact List.isEmpty_iff.mp (List.all_eq_true.mp hall s (List.mem_of_getLast? hlast))
    rw [hnil, hlast]
    rfl
  · rw [List.concat_eq_append] at hss
    rw [hss] at hsplit
    have hlast : i.segments.getLastD [] = s := by
      rw [← hsplit, ← List.append_assoc]
      simp
    have hs : ':' ∉ s := hcolon s (by rw [← hsplit]; simp)
    rw [hss, hlast]
    by_cases hinit : ss = []
    · have hplain : Text.joinChars [':', ':'] (ss ++ [s]) = s := by rw [hinit]; rfl
      rw [hplain, hasColons_segment hs]
      rfl
    · have hjoined : Text.joinChars [':', ':'] (ss ++ [s]) =
          Text.joinChars [':', ':'] ss ++ ':' :: ':' :: s := by
        rw [Text.joinChars_concat hinit]
        simp
      rw [hjoined, hasColons_append, if_pos rfl, List.reverse_append, List.reverse_cons,
        List.reverse_cons, List.append_assoc, List.append_assoc]
      show String.ofList s = String.ofList (Text.untilColons (s.reverse ++ ':' :: ':' :: _)).reverse
      rw [untilColons_append (by simpa using hs), List.reverse_reverse]

/-- A name is looked up as it stands and then by its last segment. -/
theorem resolve_name (lookup : String → Option Int64) (i : Identifier) :
    (resolve lookup i.name).toOption = (lookup i.name).or (lookup i.last) := by
  unfold resolve
  rw [last_eq]
  cases hname : lookup i.name with
  | some v => rfl
  | none =>
    cases Text.hasColons i.name.toList with
    | true =>
      simp only [↓reduceIte]
      cases lookup (Text.lastSegment i.name) <;> rfl
    | false => simp [hname, Except.toOption]

end Identifier

end ScriptExport.Constant
