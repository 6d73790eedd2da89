import ScriptExport.Proofs.Constant.Arithmetic
import ScriptExport.Proofs.Constant.Words

/-!
# Expressions

Constant expressions as trees. `Expr.value` is what a tree means, over the integers. `Expr.lexemes`
prints a tree with parentheses only where precedence and association to the left require them; the
redundant ones are nodes of the tree. `Expr.nesting` counts how deep the parentheses and prefixed
operators of the print go. `Expr.eval` computes the value with 64-bit operations, from left to right;
it agrees with the meaning wherever the literals are 64-bit values (`Expr.value_eq_eval`).
-/

namespace ScriptExport.Constant

/-- A lexeme. `-` and `+` are prefixed or infixed operators by their place. -/
inductive Lexeme where
  | literal (l : Literal)
  | name (i : Identifier)
  | operator (op : BinaryOp)
  | tilde
  | openParen
  | closeParen

namespace Lexeme

/-- The lexeme as it is written. -/
def text : Lexeme → List Char
  | literal l => l.text
  | name i => i.text
  | operator op => op.token.toList
  | tilde => ['~']
  | openParen => ['(']
  | closeParen => [')']

/-- The token of the lexeme. -/
def token : Lexeme → Token
  | literal l => .number (Int64.ofInt l.value)
  | name i => .name i.name
  | operator .add => .plus
  | operator .sub => .minus
  | operator op => .infixed op
  | tilde => .tilde
  | openParen => .openParen
  | closeParen => .closeParen

/-- Whether the lexeme is no literal that is too large. -/
def fits : Lexeme → Bool
  | literal l => l.value < 2 ^ 63
  | _ => true

end Lexeme

/-- The lexeme of a prefixed operator. -/
def UnaryOp.lexeme : UnaryOp → Lexeme
  | negate => .operator .sub
  | plus => .operator .add
  | complement => .tilde

/-! ## Precedence -/

/-- The infixed operators from the loosest to the tightest. -/
def precedenceLevels : List (List BinaryOp) :=
  [[.bitOr], [.bitXor], [.bitAnd], [.shiftLeft, .shiftRight], [.add, .sub], [.mul, .div, .mod]]

/-- The level of an infixed operator, from 1 on. -/
def precedence (op : BinaryOp) : ℕ :=
  precedenceLevels.findIdx (op ∈ ·) + 1

/-- The level of what needs no parentheses as an operand. -/
def tightest : ℕ := 7

theorem power_eq_precedence (op : BinaryOp) : op.power = precedence op := by cases op <;> rfl

theorem precedence_lt (op : BinaryOp) : precedence op < tightest := by cases op <;> decide

/-! ## Trees -/

/-- A constant expression. -/
inductive Expr where
  | literal (l : Literal)
  | name (i : Identifier)
  | unary (op : UnaryOp) (operand : Expr)
  | binary (op : BinaryOp) (left right : Expr)
  | paren (inner : Expr)

namespace Expr

/-- The print of an expression where one of at least the given level has to stand. All infixed
operators associate to the left. -/
def lexemes (level : ℕ) : Expr → List Lexeme
  | literal l => [.literal l]
  | name i => [.name i]
  | unary op e => op.lexeme :: e.lexemes tightest
  | binary op l r =>
    let bare := l.lexemes (precedence op) ++ .operator op :: r.lexemes (precedence op + 1)
    if level ≤ precedence op then bare else .openParen :: bare ++ [.closeParen]
  | paren e => .openParen :: e.lexemes 0 ++ [.closeParen]

/-- The most parentheses and prefixed operators of the print that a leaf is under. -/
def nesting (level : ℕ) : Expr → ℕ
  | literal _ | name _ => 0
  | unary _ e => e.nesting tightest + 1
  | binary op l r =>
    let bare := max (l.nesting (precedence op)) (r.nesting (precedence op + 1))
    if level ≤ precedence op then bare else bare + 1
  | paren e => e.nesting 0 + 1

/-- What an expression means. A name is looked up as it stands and then by its last segment. -/
def value (lookup : String → Option Int64) : Expr → Option ℤ
  | literal l => fit? l.value
  | name i => ((lookup i.name).or (lookup i.last)).map Int64.toInt
  | unary op e => do op.meaning (← e.value lookup)
  | binary op l r => do
    let a ← l.value lookup
    let b ← r.value lookup
    op.meaning a b
  | paren e => e.value lookup

/-- The value of an expression by 64-bit operations. -/
def eval (lookup : String → Option Int64) : Expr → Except EvalError Int64
  | literal l => .ok (Int64.ofInt l.value)
  | name i => resolve lookup i.name
  | unary op e => do applyUnary op (← e.eval lookup)
  | binary op l r => do
    let a ← l.eval lookup
    let b ← r.eval lookup
    applyBinary op a b
  | paren e => e.eval lookup

/-- The level of an expression. -/
def level : Expr → ℕ
  | binary op _ _ => precedence op
  | _ => tightest

/-- An expression that is tight enough stands without parentheses. -/
theorem lexemes_of_le {e : Expr} {n : ℕ} (h : n ≤ e.level) : e.lexemes n = e.lexemes 0 := by
  cases e with
  | binary op l r =>
    change n ≤ precedence op at h
    rw [lexemes, lexemes, if_pos h, if_pos (Nat.zero_le _)]
  | _ => rfl

theorem nesting_of_le {e : Expr} {n : ℕ} (h : n ≤ e.level) : e.nesting n = e.nesting 0 := by
  cases e with
  | binary op l r =>
    change n ≤ precedence op at h
    rw [nesting, nesting, if_pos h, if_pos (Nat.zero_le _)]
  | _ => rfl

theorem lexemes_ne_nil (e : Expr) (n : ℕ) : e.lexemes n ≠ [] := by
  cases e with
  | binary op l r => rw [lexemes]; split <;> simp
  | _ => simp [lexemes]

end Expr

/-! ## Meaning and evaluation -/

/-- A failure of either part is a failure. -/
theorem toOption_bind {ε α β : Type} (x : Except ε α) (f : α → Except ε β) :
    (x >>= f).toOption = x.toOption.bind fun a => (f a).toOption := by
  cases x <;> rfl

theorem toOption_applyUnary (op : UnaryOp) (a : Int64) :
    (applyUnary op a).toOption.map Int64.toInt = op.meaning a.toInt := by
  rw [← UnaryOp.apply_toInt]
  unfold applyUnary
  cases op.apply a <;> rfl

theorem toOption_applyBinary (op : BinaryOp) (a b : Int64) :
    (applyBinary op a b).toOption.map Int64.toInt = op.meaning a.toInt b.toInt := by
  rw [← BinaryOp.apply_toInt]
  unfold applyBinary
  cases op.apply a b with
  | ok v => rfl
  | error fault => cases fault <;> rfl

namespace Expr

theorem all_fits_binary (n : ℕ) (op : BinaryOp) (l r : Expr) :
    ((binary op l r).lexemes n).all (·.fits) =
      ((l.lexemes (precedence op)).all (·.fits) && (r.lexemes (precedence op + 1)).all (·.fits)) := by
  rw [lexemes]
  split <;> simp [Lexeme.fits]

theorem fits_lexeme (op : UnaryOp) : op.lexeme.fits = true := by cases op <;> rfl

/-- The meaning of an expression whose literals are 64-bit values is what evaluation gives, and an
expression with another literal has none. -/
theorem value_eq_eval (lookup : String → Option Int64) (e : Expr) (n : ℕ) :
    e.value lookup =
      if (e.lexemes n).all (·.fits) then (e.eval lookup).toOption.map Int64.toInt else none := by
  induction e generalizing n with
  | literal l =>
    show fit? l.value = if (Lexeme.literal l).fits && true then some (Int64.ofInt l.value).toInt else none
    unfold fit? Lexeme.fits
    by_cases hfits : l.value < 2 ^ 63
    · have hle : -2 ^ 63 ≤ (l.value : ℤ) := by omega
      have hlt : (l.value : ℤ) < 2 ^ 63 := by omega
      rw [if_pos ⟨hle, hlt⟩, if_pos (by simpa using hfits), Int64.toInt_ofInt_of_le hle hlt]
    · rw [if_neg (by omega), if_neg (by simpa using hfits)]
  | name i =>
    show _ = (resolve lookup i.name).toOption.map Int64.toInt
    rw [Identifier.resolve_name]
    rfl
  | unary op e ih =>
    have hall : ((unary op e).lexemes n).all (·.fits) = (e.lexemes tightest).all (·.fits) := by
      rw [lexemes, List.all_cons, fits_lexeme, Bool.true_and]
    rw [value, eval, ih tightest, hall, toOption_bind]
    split
    · cases e.eval lookup with
      | error err => rfl
      | ok a => exact (toOption_applyUnary op a).symm
    · rfl
  | binary op l r ihl ihr =>
    rw [value, eval, ihl (precedence op), ihr (precedence op + 1), all_fits_binary, toOption_bind]
    cases (l.lexemes (precedence op)).all (·.fits) with
    | false => rfl
    | true =>
      cases l.eval lookup with
      | error err => simp [Except.toOption]
      | ok a =>
        cases (r.lexemes (precedence op + 1)).all (·.fits) with
        | false => rfl
        | true =>
          cases r.eval lookup with
          | error err => rfl
          | ok b => exact (toOption_applyBinary op a b).symm
  | paren e ih =>
    have hall : ((paren e).lexemes n).all (·.fits) = (e.lexemes 0).all (·.fits) := by
      simp [lexemes, Lexeme.fits]
    rw [value, eval, ih 0, hall]

end Expr

end ScriptExport.Constant
