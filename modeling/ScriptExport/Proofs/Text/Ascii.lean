import ScriptExport.Text.Digit
import ScriptExport.Text.Segment

/-!
# ASCII letters and digits

The code points of letters and digits, what becomes of them in upper case, and what readers of numbers need
to know about the digits that a number is written with: they are digits, no zero stands before others,
and they write the number.
-/

namespace ScriptExport.Text

variable {c : Char}

/-- The codes of letters. -/
theorem isAlpha_iff_toNat :
    c.isAlpha = true ↔ (65 ≤ c.toNat ∧ c.toNat ≤ 90) ∨ (97 ≤ c.toNat ∧ c.toNat ≤ 122) := by
  have hranges : c.isAlpha = (decide ('A'.val ≤ c.val ∧ c.val ≤ 'Z'.val) ||
      decide ('a'.val ≤ c.val) && decide (c.val ≤ 'z'.val)) := rfl
  rw [hranges]
  simp [UInt32.le_iff_toNat_le, ← Char.toNat_val]

theorem isUpper_iff_toNat : c.isUpper = true ↔ 65 ≤ c.toNat ∧ c.toNat ≤ 90 := by
  have hrange : c.isUpper = decide ('A'.val ≤ c.val ∧ c.val ≤ 'Z'.val) := rfl
  rw [hrange]
  simp [UInt32.le_iff_toNat_le, ← Char.toNat_val]

theorem isDigit_iff_toNat : c.isDigit = true ↔ 48 ≤ c.toNat ∧ c.toNat ≤ 57 :=
  Char.isDigit_iff_toNat

theorem toNat_toUpper (hc : 97 ≤ c.toNat ∧ c.toNat ≤ 122) : c.toUpper.toNat = c.toNat - 32 := by
  have hlower : 'a'.val ≤ c.val ∧ c.val ≤ 'z'.val := by
    simpa [UInt32.le_iff_toNat_le, ← Char.toNat_val] using hc
  have hshift : ('A'.val - 'a'.val).toNat = 4294967264 := rfl
  unfold Char.toUpper
  rw [dif_pos hlower, ← Char.toNat_val, UInt32.toNat_add, hshift, Char.toNat_val]
  omega

theorem toUpper_of_not_lower (hc : ¬ (97 ≤ c.toNat ∧ c.toNat ≤ 122)) : c.toUpper = c := by
  unfold Char.toUpper
  rw [dif_neg]
  simpa [UInt32.le_iff_toNat_le, ← Char.toNat_val] using hc

theorem isAlphanum_of_isUpper (h : c.isUpper = true) : c.isAlphanum = true := by
  have hunfold : c.isAlphanum = (c.isUpper || c.isLower || c.isDigit) := rfl
  rw [hunfold, h, Bool.true_or, Bool.true_or]

theorem isAlphanum_of_isDigit (h : c.isDigit = true) : c.isAlphanum = true := by
  have hunfold : c.isAlphanum = (c.isAlpha || c.isDigit) := rfl
  rw [hunfold, h, Bool.or_true]

/-- A letter or digit in upper case is a capital or a digit. -/
theorem isUpper_or_isDigit_toUpper (hc : c.isAlphanum = true) :
    c.toUpper.isUpper = true ∨ c.toUpper.isDigit = true := by
  have halnum : c.isAlphanum = (c.isAlpha || c.isDigit) := rfl
  rw [halnum, Bool.or_eq_true, isAlpha_iff_toNat, isDigit_iff_toNat] at hc
  rw [isUpper_iff_toNat, isDigit_iff_toNat]
  by_cases hlower : 97 ≤ c.toNat ∧ c.toNat ≤ 122
  · rw [toNat_toUpper hlower]
    omega
  · rw [toUpper_of_not_lower hlower]
    omega

theorem isDigit_of_mem_toDigits {n : Nat} (hc : c ∈ Nat.toDigits 10 n) : c.isDigit = true :=
  Nat.isDigit_of_mem_toDigits (by decide) (by decide) hc

/-- Only zero is written with a zero in front. -/
theorem head?_toDigits {n : Nat} (hn : n ≠ 0) : (Nat.toDigits 10 n).head? ≠ some '0' := by
  induction n using Nat.strongRecOn with
  | ind n ih =>
    rw [Nat.toDigits_eq_if (by decide)]
    split
    · simpa using hn
    · have hhead := ih (n / 10) (by omega) (by omega)
      obtain ⟨d, ds, hds⟩ := List.exists_cons_of_ne_nil (Nat.toDigits_ne_nil (n := n / 10) (b := 10))
      rw [hds] at hhead ⊢
      exact hhead

theorem toDigits_eq_cons {n : Nat} (hn : n ≠ 0) :
    ∃ d ds, Nat.toDigits 10 n = d :: ds ∧ d ≠ '0' ∧ d.isDigit = true := by
  obtain ⟨d, ds, hds⟩ := List.exists_cons_of_ne_nil (Nat.toDigits_ne_nil (n := n) (b := 10))
  refine ⟨d, ds, hds, ?_, isDigit_of_mem_toDigits (hds ▸ List.mem_cons_self)⟩
  rintro rfl
  exact head?_toDigits hn (by rw [hds]; rfl)

theorem digitValue?_of_isDigit (hc : c.isDigit = true) :
    digitValue? 10 c = some (c.toNat - '0'.toNat) := by
  have hlt : c.toNat - '0'.toNat < 10 := by
    have hle := (isDigit_iff_toNat.mp hc).2
    have hzero : '0'.toNat = 48 := rfl
    omega
  unfold digitValue?
  rw [if_pos hc]
  exact if_pos hlt

/-- Decimal digits have a value. -/
theorem numberValue?_of_isDigit {ds : List Char} (hds : ∀ c ∈ ds, c.isDigit = true) :
    numberValue? 10 ds = some (Nat.ofDigitChars 10 ds 0) := by
  have hfold : ∀ init, ds.foldlM (fun n d => (digitValue? 10 d).map (10 * n + ·)) init =
      some (Nat.ofDigitChars 10 ds init) := by
    induction ds with
    | nil => intro init; simp
    | cons c ds ih =>
      intro init
      rw [List.foldlM_cons, digitValue?_of_isDigit (hds c List.mem_cons_self), Nat.ofDigitChars_cons]
      exact ih (fun d hd => hds d (List.mem_cons_of_mem c hd)) _
  exact hfold 0

theorem numberValue?_toDigits (n : Nat) : numberValue? 10 (Nat.toDigits 10 n) = some n := by
  rw [numberValue?_of_isDigit fun _ hc => isDigit_of_mem_toDigits hc, Nat.ofDigitChars_ten_toDigits]

/-- An integer is a sign and digits. -/
theorem toList_toString_int (n : Int) :
    (toString n).toList =
      if n < 0 then '-' :: Nat.toDigits 10 n.natAbs else Nat.toDigits 10 n.natAbs := by
  cases n with
  | ofNat m =>
    show (Nat.repr m).toList = _
    simp
  | negSucc m =>
    show ("-" ++ Nat.repr (m + 1)).toList = _
    simp

end ScriptExport.Text
