import ScriptExport.Proofs.Constant.Grammar

/-!
# Exact values

What an expression means over all integers (`Expr.unbounded`), with no bound on any result: quotients
and remainders truncate toward zero, a left shift multiplies and a right shift divides by a power of two,
and bit operations are those of infinite two's complement. The evaluator computes with 64-bit values. Of
its operations all but one fail where the result is no such value; a left shift drops the high bits
instead. So a value that is returned is the exact one, and all values on the way to it are, precisely if the
exact result of every left shift in the expression is a 64-bit value (`left_shifts_fit_iff_exact`).
-/

namespace ScriptExport.Constant

/-- The result of a prefixed operator, whatever its size. -/
def UnaryOp.unbounded (op : UnaryOp) (a : ℤ) : ℤ :=
  match op with
  | negate => -a
  | plus => a
  | complement => Int.lnot a

/-- The result of an infixed operator, whatever its size. There is no quotient by zero and no shift by a
negative distance. -/
def BinaryOp.unbounded (op : BinaryOp) (a b : ℤ) : Option ℤ :=
  match op with
  | add => some (a + b)
  | sub => some (a - b)
  | mul => some (a * b)
  | div => if b = 0 then none else some (a.tdiv b)
  | mod => if b = 0 then none else some (a.tmod b)
  | shiftLeft => if b < 0 then none else some (a * 2 ^ b.toNat)
  | shiftRight => if b < 0 then none else some (a.fdiv (2 ^ b.toNat))
  | bitAnd => some (Int.land a b)
  | bitXor => some (Int.xor a b)
  | bitOr => some (Int.lor a b)

namespace Expr

/-- What an expression means if no result is bounded. Names are looked up as ever. -/
def unbounded (lookup : String → Option Int64) : Expr → Option ℤ
  | literal l => some l.value
  | name i => ((lookup i.name).or (lookup i.last)).map Int64.toInt
  | unary op e => (e.unbounded lookup).map op.unbounded
  | binary op l r => do
    let a ← l.unbounded lookup
    let b ← r.unbounded lookup
    op.unbounded a b
  | paren e => e.unbounded lookup

/-- The expression and everything in it. -/
def subterms : Expr → List Expr
  | literal l => [literal l]
  | name i => [name i]
  | unary op e => unary op e :: e.subterms
  | binary op l r => binary op l r :: (l.subterms ++ r.subterms)
  | paren e => paren e :: e.subterms

/-- The exact result of every left shift in the expression is a 64-bit value. -/
def LeftShiftsFit (lookup : String → Option Int64) (e : Expr) : Prop :=
  ∀ l r, binary .shiftLeft l r ∈ e.subterms →
    ∃ n, (binary .shiftLeft l r).unbounded lookup = some n ∧ -2 ^ 63 ≤ n ∧ n < 2 ^ 63

/-- Evaluation gives the expression its exact value. -/
def IsExact (lookup : String → Option Int64) (e : Expr) : Prop :=
  ∃ n, e.value lookup = some n ∧ e.unbounded lookup = some n

theorem self_mem_subterms (e : Expr) : e ∈ e.subterms := by
  cases e <;> simp [subterms]

end Expr

/-! ## One operation -/

theorem eq_of_fit? {m n : ℤ} (h : fit? m = some n) : m = n := by
  unfold fit? at h
  split at h
  · exact Option.some.inj h
  · cases h

theorem UnaryOp.unbounded_of_meaning {op : UnaryOp} {a n : ℤ} (h : op.meaning a = some n) :
    op.unbounded a = n := by
  cases op with
  | negate => exact eq_of_fit? h
  | plus => exact Option.some.inj h
  | complement => exact Option.some.inj h

/-- The result of an operation is the exact one, for a left shift if that is a 64-bit value. -/
theorem BinaryOp.unbounded_of_meaning {op : BinaryOp} {a b n : ℤ} (h : op.meaning a b = some n)
    (hshift : op = .shiftLeft → ∀ m, op.unbounded a b = some m → -2 ^ 63 ≤ m ∧ m < 2 ^ 63) :
    op.unbounded a b = some n := by
  cases op with
  | add => exact congrArg some (eq_of_fit? h)
  | sub => exact congrArg some (eq_of_fit? h)
  | mul => exact congrArg some (eq_of_fit? h)
  | div =>
    obtain ⟨hb, h⟩ := Option.ite_none_left_eq_some.mp h
    rw [unbounded, if_neg hb, eq_of_fit? h]
  | mod =>
    obtain ⟨hb, h⟩ := Option.ite_none_left_eq_some.mp h
    obtain ⟨-, -, h⟩ := Option.map_eq_some_iff.mp h
    rw [unbounded, if_neg hb, h]
  | shiftLeft =>
    obtain ⟨hb, h⟩ := Option.ite_none_right_eq_some.mp h
    have hexact : BinaryOp.shiftLeft.unbounded a b = some (a * 2 ^ b.toNat) :=
      if_neg (Int.not_lt.mpr hb.1)
    obtain ⟨hle, hlt⟩ := hshift rfl _ hexact
    generalize a * 2 ^ b.toNat = m at hexact h hle hlt
    rw [hexact, ← h, Int.bmod_eq_of_le (by omega) (by omega)]
  | shiftRight =>
    obtain ⟨hb, h⟩ := Option.ite_none_right_eq_some.mp h
    have hpow : (0 : ℤ) ≤ 2 ^ b.toNat := Int.pow_nonneg (by decide)
    rw [unbounded, if_neg (Int.not_lt.mpr hb.1), Int.fdiv_eq_ediv_of_nonneg _ hpow, h]
  | bitAnd => exact h
  | bitXor => exact h
  | bitOr => exact h

/-! ## Expressions -/

namespace Expr

variable {lookup : String → Option Int64}

theorem LeftShiftsFit.of_subterm {e s : Expr} (h : e.LeftShiftsFit lookup)
    (hsub : s.subterms ⊆ e.subterms) : s.LeftShiftsFit lookup :=
  fun l r hmem => h l r (hsub hmem)

/-- A value is a 64-bit one. -/
theorem range_of_value {e : Expr} {n : ℤ} (h : e.value lookup = some n) :
    -2 ^ 63 ≤ n ∧ n < 2 ^ 63 := by
  rw [e.value_eq_eval lookup 0] at h
  obtain ⟨-, h⟩ := Option.ite_none_right_eq_some.mp h
  obtain ⟨v, -, rfl⟩ := Option.map_eq_some_iff.mp h
  exact ⟨v.le_toInt, v.toInt_lt⟩

/-- An expression with a value in which no left shift drops bits is exact throughout. -/
theorem isExact_of_leftShiftsFit {e : Expr} {n : ℤ} (hvalue : e.value lookup = some n)
    (hfit : e.LeftShiftsFit lookup) :
    e.unbounded lookup = some n ∧ ∀ s ∈ e.subterms, s.IsExact lookup := by
  induction e generalizing n with
  | literal l =>
    have hexact : (literal l).unbounded lookup = some n := congrArg some (eq_of_fit? hvalue)
    refine ⟨hexact, fun s hs => ?_⟩
    rw [List.mem_singleton.mp hs]
    exact ⟨n, hvalue, hexact⟩
  | name i =>
    refine ⟨hvalue, fun s hs => ?_⟩
    rw [List.mem_singleton.mp hs]
    exact ⟨n, hvalue, hvalue⟩
  | unary op e ih =>
    obtain ⟨a, ha, hop⟩ := Option.bind_eq_some_iff.mp hvalue
    obtain ⟨hoperand, hinner⟩ := ih ha (hfit.of_subterm (List.subset_cons_self _ _))
    have hexact : (unary op e).unbounded lookup = some n := by
      rw [unbounded, hoperand, Option.map_some, UnaryOp.unbounded_of_meaning hop]
    refine ⟨hexact, List.forall_mem_cons.mpr ⟨⟨n, hvalue, hexact⟩, hinner⟩⟩
  | binary op l r ihl ihr =>
    obtain ⟨a, ha, hrest⟩ := Option.bind_eq_some_iff.mp hvalue
    obtain ⟨b, hb, hop⟩ := Option.bind_eq_some_iff.mp hrest
    have hleftSub : l.subterms ⊆ (binary op l r).subterms :=
      List.subset_cons_of_subset _ (List.subset_append_left _ _)
    have hrightSub : r.subterms ⊆ (binary op l r).subterms :=
      List.subset_cons_of_subset _ (List.subset_append_right _ _)
    obtain ⟨hleft, hinnerLeft⟩ := ihl ha (hfit.of_subterm hleftSub)
    obtain ⟨hright, hinnerRight⟩ := ihr hb (hfit.of_subterm hrightSub)
    have hresult : (binary op l r).unbounded lookup = op.unbounded a b := by
      rw [unbounded, hleft, hright]
      rfl
    have hshift : op = .shiftLeft → ∀ m, op.unbounded a b = some m → -2 ^ 63 ≤ m ∧ m < 2 ^ 63 := by
      rintro rfl m hm
      obtain ⟨k, hk, hrange⟩ := hfit l r (self_mem_subterms _)
      rw [hresult, hm] at hk
      cases hk
      exact hrange
    have hexact := hresult.trans (BinaryOp.unbounded_of_meaning hop hshift)
    refine ⟨hexact, List.forall_mem_cons.mpr ⟨⟨n, hvalue, hexact⟩, fun s hs => ?_⟩⟩
    rcases List.mem_append.mp hs with hs | hs
    · exact hinnerLeft s hs
    · exact hinnerRight s hs
  | paren e ih =>
    obtain ⟨hexact, hinner⟩ := ih hvalue (hfit.of_subterm (List.subset_cons_self _ _))
    exact ⟨hexact, List.forall_mem_cons.mpr ⟨⟨n, hvalue, hexact⟩, hinner⟩⟩

theorem left_shifts_fit_iff_exact {e : Expr} {n : ℤ} (hvalue : e.value lookup = some n) :
    e.LeftShiftsFit lookup ↔ ∀ s ∈ e.subterms, s.IsExact lookup := by
  refine ⟨fun hfit => (isExact_of_leftShiftsFit hvalue hfit).2, fun hexact l r hmem => ?_⟩
  obtain ⟨m, hm, hunbounded⟩ := hexact _ hmem
  exact ⟨m, hunbounded, range_of_value hm⟩

end Expr

/-! ## Returned values -/

theorem value_of_evaluate {lookup : String → Option Int64} {text : String} {v : Int64} {e : Expr}
    (h : evaluate lookup text = .ok v) (hspells : Spells (e.lexemes 0) text.toList)
    (hnesting : e.nesting 0 < maxDepth) : e.value lookup = some v.toInt := by
  have hevaluate : (evaluate lookup text).toOption = _ := evaluate_of_spells hspells hnesting
  rw [h] at hevaluate
  obtain ⟨hfits, heval⟩ := Option.ite_none_right_eq_some.mp hevaluate.symm
  rw [e.value_eq_eval lookup 0, if_pos hfits, heval]
  rfl

/-- **Values are exact unless a left shift drops bits.** A text with a value spells an expression, and for
each expression that it spells: if the exact result of every left shift in the expression is a 64-bit
value, then the value is the exact one, and so are all the values that the parts of the expression have on
the way to it. Otherwise one of those is not. -/
theorem evaluate_exact_iff_left_shifts_fit (lookup : String → Option Int64) (text : String) (v : Int64)
    (h : evaluate lookup text = .ok v) :
    (∃ e : Expr, Spells (e.lexemes 0) text.toList ∧ e.nesting 0 ≤ 255) ∧
    ∀ e : Expr, Spells (e.lexemes 0) text.toList → e.nesting 0 ≤ 255 →
      (e.LeftShiftsFit lookup → e.unbounded lookup = some v.toInt) ∧
      (e.LeftShiftsFit lookup ↔ ∀ s ∈ e.subterms, s.IsExact lookup) := by
  constructor
  · obtain ⟨e, hspells, hnesting, -, -⟩ := exists_expr_of_evaluate h
    exact ⟨e, hspells, Nat.le_of_lt_succ hnesting⟩
  · intro e hspells hnesting
    have hvalue := value_of_evaluate h hspells (Nat.lt_succ_of_le hnesting)
    exact ⟨fun hfit => (Expr.isExact_of_leftShiftsFit hvalue hfit).1,
      Expr.left_shifts_fit_iff_exact hvalue⟩

/-- One bit is shifted up to the place before the sign, and onto it. -/
theorem evaluate_exact_iff_left_shifts_fit_one_bit :
    let lookup : String → Option Int64 := fun _ => none
    (∃ e : Expr, Spells (e.lexemes 0) "1 << 62".toList ∧ e.nesting 0 ≤ 255 ∧
      evaluate lookup "1 << 62" = .ok 0x4000000000000000 ∧ e.LeftShiftsFit lookup ∧
      e.unbounded lookup = some (2 ^ 62) ∧ ∀ s ∈ e.subterms, s.IsExact lookup) ∧
    ∃ e : Expr, Spells (e.lexemes 0) "1 << 63".toList ∧ e.nesting 0 ≤ 255 ∧
      evaluate lookup "1 << 63" = .ok Int64.minValue ∧ e.unbounded lookup = some (2 ^ 63) ∧
      ¬ ∀ s ∈ e.subterms, s.IsExact lookup := by
  intro lookup
  let one : Literal :=
    ⟨'1', [], .decimal, [1], [], rfl, List.forall_mem_nil _, by decide, by decide, by decide,
      List.forall_mem_nil _, by decide⟩
  let low : Literal :=
    ⟨'6', ['2'], .decimal, [6, 2], [], rfl, List.all_eq_true.mp rfl, by decide, by decide, by decide,
      List.forall_mem_nil _, by decide⟩
  let high : Literal :=
    ⟨'6', ['3'], .decimal, [6, 3], [], rfl, List.all_eq_true.mp rfl, by decide, by decide, by decide,
      List.forall_mem_nil _, by decide⟩
  let shifted (distance : Literal) : Expr :=
    .binary .shiftLeft (.literal one) (.literal distance)
  have hspells : ∀ distance : Literal,
      Spells ((shifted distance).lexemes 0) ('1' :: ' ' :: '<' :: '<' :: ' ' :: (distance.text ++ [])) :=
    fun distance => .lexeme (.literal one) <| .blank ' ' rfl <| .lexeme (.operator .shiftLeft) <|
      .blank ' ' rfl <| .lexeme (.literal distance) .nil
  have hnesting : ∀ distance, (shifted distance).nesting 0 ≤ 255 := fun _ => Nat.zero_le _
  have hunbounded : ∀ distance, (shifted distance).unbounded lookup = some (2 ^ distance.value) := by
    intro distance
    have hone : one.value = 1 := rfl
    show BinaryOp.shiftLeft.unbounded (one.value : ℤ) distance.value = _
    rw [BinaryOp.unbounded, if_neg (by omega), hone, Int.toNat_natCast]
    simp
  have hlow : evaluate lookup "1 << 62" = .ok 0x4000000000000000 := by rfl
  have hhigh : evaluate lookup "1 << 63" = .ok Int64.minValue := by rfl
  constructor
  · have hfit : (shifted low).LeftShiftsFit lookup := by
      intro l r hmem
      have hwhole : Expr.binary .shiftLeft l r = shifted low := by
        simpa [shifted, Expr.subterms] using hmem
      exact ⟨2 ^ 62, hwhole ▸ hunbounded low, by decide, by decide⟩
    obtain ⟨-, hexact⟩ := evaluate_exact_iff_left_shifts_fit lookup _ _ hlow
    exact ⟨shifted low, hspells low, hnesting low, hlow, hfit, hunbounded low,
      (hexact _ (hspells low) (hnesting low)).2.mp hfit⟩
  · have hloses : ¬ (shifted high).LeftShiftsFit lookup := by
      intro hfit
      obtain ⟨n, hn, -, hlt⟩ := hfit _ _ (Expr.self_mem_subterms _)
      cases hn.symm.trans (hunbounded high)
      exact absurd hlt (by decide)
    obtain ⟨-, hexact⟩ := evaluate_exact_iff_left_shifts_fit lookup _ _ hhigh
    exact ⟨shifted high, hspells high, hnesting high, hhigh, hunbounded high,
      mt (hexact _ (hspells high) (hnesting high)).2.mpr hloses⟩

end ScriptExport.Constant
