import ScriptExport.Proofs.Constant.Reading

/-!
# Parsing with a stack

The evaluator finds the tree of an expression without building it. Started on the print of a tree, on
any stack on which the print may stand and before any tokens that do not bind tighter, it goes on with
the value of the tree (`evaluates_lexemes`). Conversely the lexemes that it has taken are always those of
open parentheses, prefixed operators and left operands on the stack (`Opens`), so what it has taken
when it returns a value is the print of one tree (`exists_expr_of_run`).
-/

namespace ScriptExport.Constant

variable (lookup : String → Option Int64) (text : String)

/-! ## Prints are evaluated -/

/-- Whether an expression of the level may stand on the stack without parentheses. -/
def Accepts (stack : List Frame) (n : ℕ) : Prop :=
  match stack with
  | .unary _ :: _ => tightest ≤ n
  | .binary _ op :: _ => precedence op < n
  | _ => True

/-- How tightly what follows binds to its left. -/
def followingPower : List Token → ℕ
  | [] => 0
  | t :: _ => (t.binary?.map BinaryOp.power).getD 0

theorem binary?_token (op : BinaryOp) : (Lexeme.operator op).token.binary? = some op := by
  cases op <;> rfl

theorem followingPower_operator (op : BinaryOp) (ts : List Token) :
    followingPower ((Lexeme.operator op).token :: ts) = precedence op := by
  show ((Lexeme.operator op).token.binary?.map BinaryOp.power).getD 0 = _
  rw [binary?_token]
  exact power_eq_precedence op

theorem followingPower_le (ts : List Token) : followingPower ts ≤ tightest := by
  cases ts with
  | nil => exact Nat.zero_le _
  | cons t ts =>
    show (t.binary?.map BinaryOp.power).getD 0 ≤ tightest
    cases t.binary? with
    | none => exact Nat.zero_le _
    | some op =>
      show op.power ≤ tightest
      rw [power_eq_precedence]
      exact Nat.le_of_lt (precedence_lt op)

section Stack

variable {stack : List Frame} {n : ℕ}

theorem Accepts.mono {m : ℕ} (h : Accepts stack n) (hm : n ≤ m) : Accepts stack m := by
  match stack, h with
  | [], _ => trivial
  | .paren :: _, _ => trivial
  | .unary _ :: _, h => exact Nat.le_trans h hm
  | .binary _ _ :: _, h => exact Nat.lt_of_lt_of_le h hm

theorem settle_of_accepts (h : Accepts stack n) (hn : n < tightest) (v : Int64) :
    settle v stack = .ok (v, stack) := by
  match stack, h with
  | [], _ => rfl
  | .paren :: _, _ => rfl
  | .unary _ :: _, h => exact absurd hn (Nat.not_lt.mpr h)
  | .binary _ _ :: _, _ => rfl

/-- An operator that the stack accepts reduces nothing. -/
theorem reduce_of_accepts (h : Accepts stack n) {power : ℕ} (hn : n ≤ power) (v : Int64) :
    reduce power v stack = .ok (v, stack) := by
  match stack, h with
  | [], _ => rfl
  | .paren :: _, _ => rfl
  | .unary _ :: _, _ => rfl
  | .binary _ op :: _, h =>
    have hlt : op.power < n := power_eq_precedence op ▸ h
    rw [reduce, if_neg (by omega)]

end Stack

/-- Go on with an operand that is complete: the prefixed operators before it are applied. -/
def resume (stack : List Frame) (ts : List Token) (v : Int64) : Except EvalError Int64 := do
  let (v, stack) ← settle v stack
  run lookup text (.value v) stack ts

theorem resume_unary (op : UnaryOp) (stack : List Frame) (ts : List Token) (v : Int64) :
    resume lookup text (.unary op :: stack) ts v =
      applyUnary op v >>= resume lookup text stack ts := by
  unfold resume
  rw [settle]
  cases applyUnary op v <;> rfl

variable {stack stack' : List Frame} {taken : List Lexeme}

theorem resume_of_accepts {n : ℕ} (h : Accepts stack n) (hn : n < tightest) (ts : List Token)
    (v : Int64) : resume lookup text stack ts v = run lookup text (.value v) stack ts := by
  unfold resume
  rw [settle_of_accepts h hn]
  rfl

section Operand

variable (h : depth stack < maxDepth) (ts : List Token)

include h

theorem run_number (v : Int64) :
    run lookup text .operand stack (.number v :: ts) = resume lookup text stack ts v := by
  rw [run, if_neg (Nat.not_le.mpr h)]
  show ((settle v stack).map _ >>= _) = settle v stack >>= _
  cases settle v stack <;> rfl

theorem run_name (name : String) :
    run lookup text .operand stack (.name name :: ts) =
      resolve lookup name >>= resume lookup text stack ts := by
  rw [run, if_neg (Nat.not_le.mpr h)]
  show ((resolve lookup name >>= fun v => (settle v stack).map _) >>= _) = _
  cases resolve lookup name with
  | error e => rfl
  | ok v =>
    show ((settle v stack).map _ >>= _) = settle v stack >>= _
    cases settle v stack <;> rfl

theorem run_openParen :
    run lookup text .operand stack (.openParen :: ts) =
      run lookup text .operand (.paren :: stack) ts := by
  rw [run, if_neg (Nat.not_le.mpr h)]
  rfl

theorem run_unary (op : UnaryOp) :
    run lookup text .operand stack (op.lexeme.token :: ts) =
      run lookup text .operand (.unary op :: stack) ts := by
  rw [run, if_neg (Nat.not_le.mpr h)]
  cases op <;> rfl

end Operand

/-- After a value an infixed operator waits for its right operand. -/
theorem run_operator {n : ℕ} (h : Accepts stack n) {op : BinaryOp} (hn : n ≤ precedence op)
    (v : Int64) (ts : List Token) :
    run lookup text (.value v) stack ((Lexeme.operator op).token :: ts) =
      run lookup text .operand (.binary v op :: stack) ts := by
  rw [run, takeOperator, binary?_token]
  dsimp only
  rw [reduce_of_accepts h (power_eq_precedence op ▸ hn)]
  rfl

/-- An infixed operator is applied if what follows does not bind tighter. -/
theorem run_reduce {op : BinaryOp} {ts : List Token} (h : followingPower ts ≤ precedence op)
    (a v : Int64) (stack : List Frame) :
    run lookup text (.value v) (.binary a op :: stack) ts = (do
      let v ← applyBinary op a v
      run lookup text (.value v) stack ts) := by
  have hreduce : ∀ power ≤ op.power, reduce power v (.binary a op :: stack) =
      (do reduce power (← applyBinary op a v) stack) := by
    intro power hpower
    rw [reduce, if_pos hpower]
  cases ts with
  | nil =>
    rw [run, hreduce 0 (Nat.zero_le _)]
    cases applyBinary op a v <;> rfl
  | cons t ts =>
    rw [run, takeOperator]
    cases hbinary : t.binary? with
    | some next =>
      have hpower : next.power ≤ op.power := by
        rw [power_eq_precedence op]
        simpa [followingPower, hbinary] using h
      dsimp only
      rw [hreduce _ hpower]
      cases applyBinary op a v with
      | error e => rfl
      | ok v' =>
        show _ = run lookup text (.value v') stack (t :: ts)
        rw [run, takeOperator, hbinary]
        rfl
    | none =>
      dsimp only
      rw [hreduce 0 (Nat.zero_le _)]
      cases applyBinary op a v with
      | error e => rfl
      | ok v' =>
        show _ = run lookup text (.value v') stack (t :: ts)
        rw [run, takeOperator, hbinary]
        rfl

theorem run_closeParen (v : Int64) (stack : List Frame) (ts : List Token) :
    run lookup text (.value v) (.paren :: stack) (.closeParen :: ts) =
      resume lookup text stack ts v := by
  show ((do
    let (v, stack) ← settle v stack
    return (Focus.value v, stack)) >>= _) = _
  unfold resume
  cases settle v stack <;> rfl

/-- Lexemes of the level `n`, nested `k` deep, are evaluated to `x`, on whatever stack and before
whatever tokens they stand. -/
def Evaluates (x : Except EvalError Int64) (n k : ℕ) (ls : List Lexeme) : Prop :=
  ∀ (stack : List Frame) (ts : List Token), Accepts stack n → followingPower ts ≤ n →
    depth stack + k < maxDepth →
    run lookup text .operand stack (ls.map (·.token) ++ ts) = x >>= resume lookup text stack ts

namespace Evaluates

variable {lookup text} {x y : Except EvalError Int64} {n k k' : ℕ} {ls ls' : List Lexeme}

/-- A prefixed operator applies to the operand behind it. -/
theorem unary (h : Evaluates lookup text x tightest k ls) (op : UnaryOp) :
    Evaluates lookup text (x >>= applyUnary op) n (k + 1) (op.lexeme :: ls) := by
  intro stack ts _ _ hdepth
  have haccepts : Accepts (.unary op :: stack) tightest := Nat.le_refl tightest
  have hdepth' : depth (.unary op :: stack) + k < maxDepth := by
    show 1 + depth stack + k < maxDepth
    omega
  rw [List.map_cons, List.cons_append, run_unary lookup text (by omega),
    h _ ts haccepts (followingPower_le ts) hdepth']
  cases x with
  | error err => rfl
  | ok v => exact resume_unary lookup text op stack ts v

/-- Operands and operator evaluate in order. -/
theorem binary {op : BinaryOp} (hl : Evaluates lookup text x (precedence op) k ls)
    (hr : Evaluates lookup text y (precedence op + 1) k' ls') (hn : n ≤ precedence op) :
    Evaluates lookup text (do let a ← x; let b ← y; applyBinary op a b) n (max k k')
      (ls ++ .operator op :: ls') := by
  intro stack ts haccepts hfollowing hdepth
  have hlt : n < tightest := Nat.lt_of_le_of_lt hn (precedence_lt op)
  rw [List.map_append, List.map_cons, List.append_assoc, List.cons_append,
    hl stack _ (haccepts.mono hn) (Nat.le_of_eq (followingPower_operator op _)) (by omega)]
  cases x with
  | error err => rfl
  | ok a =>
    have haccepts' : Accepts (.binary a op :: stack) (precedence op + 1) := Nat.lt_succ_self _
    have hdepth' : depth (.binary a op :: stack) + k' < maxDepth := by
      show 0 + depth stack + k' < maxDepth
      omega
    show resume lookup text stack _ a = _
    rw [resume_of_accepts lookup text haccepts hlt, run_operator lookup text haccepts hn,
      hr _ ts haccepts' (by omega) hdepth']
    cases y with
    | error err => rfl
    | ok b =>
      show run lookup text (.value b) (.binary a op :: stack) ts =
        applyBinary op a b >>= resume lookup text stack ts
      rw [run_reduce lookup text (Nat.le_trans hfollowing hn)]
      refine bind_congr fun v => ?_
      exact (resume_of_accepts lookup text haccepts hlt ts v).symm

/-- What stands in parentheses is an operand. -/
theorem paren (h : Evaluates lookup text x 0 k ls) :
    Evaluates lookup text x n (k + 1) (.openParen :: ls ++ [.closeParen]) := by
  intro stack ts _ _ hdepth
  have haccepts : Accepts (.paren :: stack) 0 := trivial
  have hfollowing : followingPower (.closeParen :: ts) ≤ 0 := Nat.le_refl 0
  have hdepth' : depth (.paren :: stack) + k < maxDepth := by
    show 1 + depth stack + k < maxDepth
    omega
  have htokens : (Lexeme.openParen :: ls ++ [Lexeme.closeParen]).map (·.token) ++ ts =
      Token.openParen :: (ls.map (·.token) ++ .closeParen :: ts) := by
    simp [Lexeme.token]
  rw [htokens, run_openParen lookup text (by omega), h _ _ haccepts hfollowing hdepth']
  refine bind_congr fun v => ?_
  exact run_closeParen lookup text v stack ts

end Evaluates

/-- The print of an expression is evaluated to its value. -/
theorem evaluates_lexemes (e : Expr) (n : ℕ) :
    Evaluates lookup text (e.eval lookup) n (e.nesting n) (e.lexemes n) := by
  induction e generalizing n with
  | literal l => exact fun _ _ _ _ hdepth => run_number lookup text hdepth _ _
  | name i => exact fun _ _ _ _ hdepth => run_name lookup text hdepth _ i.name
  | unary op e ih => exact (ih tightest).unary op
  | binary op l r ihl ihr =>
    rw [Expr.lexemes, Expr.nesting]
    split
    · next hn => exact (ihl _).binary (ihr _) hn
    · exact ((ihl _).binary (ihr _) (Nat.zero_le _)).paren
  | paren e ih => exact (ih 0).paren

/-! ## What is evaluated is a print -/

/-- The lexemes that led to a stack: open parentheses, prefixed operators, and left operands with
their operators. An operator on the stack binds tighter than the one below it. -/
inductive Opens : List Lexeme → List Frame → Prop where
  | nil : Opens [] []
  | paren {pre : List Lexeme} {stack : List Frame} (h : Opens pre stack) :
    Opens (pre ++ [.openParen]) (.paren :: stack)
  | unary {pre : List Lexeme} {stack : List Frame} (op : UnaryOp) (h : Opens pre stack) :
    Opens (pre ++ [op.lexeme]) (.unary op :: stack)
  | binary {pre : List Lexeme} {stack : List Frame} {v : Int64} (e : Expr) (op : BinaryOp)
    (h : Opens pre stack) (haccepts : Accepts stack (precedence op))
    (hlevel : precedence op ≤ e.level) (heval : e.eval lookup = .ok v)
    (hdepth : depth stack + e.nesting 0 < maxDepth) :
    Opens (pre ++ e.lexemes 0 ++ [.operator op]) (.binary v op :: stack)

/-- No prefixed operator waits for a value. -/
def Settled : List Frame → Prop
  | .unary _ :: _ => False
  | _ => True

/-- The lexemes that led to a value above a stack: those of the stack, and the print of an expression
of at least the level `n` with the value. -/
structure Holds (n : ℕ) (pre : List Lexeme) (e : Expr) (v : Int64) (stack : List Frame) : Prop where
  opens : Opens lookup pre stack
  eval : e.eval lookup = .ok v
  level : n ≤ e.level
  accepts : Accepts stack e.level
  settled : Settled stack
  depth : depth stack + e.nesting 0 < maxDepth

/-- What the evaluator has taken, by what it expects next. -/
def Taken (ls : List Lexeme) (stack : List Frame) : Focus → Prop
  | .operand => Opens lookup ls stack
  | .value v => ∃ pre e, ls = pre ++ e.lexemes 0 ∧ Holds lookup tightest pre e v stack

variable {lookup text}

theorem Accepts.settled {n : ℕ} (h : Accepts stack n) (hn : n < tightest) : Settled stack := by
  match stack, h with
  | [], _ => trivial
  | .paren :: _, _ => trivial
  | .unary _ :: _, h => exact absurd hn (Nat.not_lt.mpr h)
  | .binary _ _ :: _, _ => trivial

theorem Holds.mono {m n : ℕ} {pre : List Lexeme} {e : Expr} {v : Int64}
    (h : Holds lookup n pre e v stack) (hm : m ≤ n) : Holds lookup m pre e v stack :=
  { h with level := Nat.le_trans hm h.level }

/-- Prefixed operators take up a complete operand. -/
theorem exists_holds_of_settle {pre : List Lexeme} {e : Expr} {v v' : Int64}
    (hopens : Opens lookup pre stack) (heval : e.eval lookup = .ok v) (hlevel : tightest ≤ e.level)
    (hdepth : depth stack + e.nesting 0 < maxDepth) (h : settle v stack = .ok (v', stack')) :
    ∃ pre' e', pre ++ e.lexemes 0 = pre' ++ e'.lexemes 0 ∧
      Holds lookup tightest pre' e' v' stack' := by
  induction hopens generalizing e v with
  | nil =>
    cases h
    exact ⟨[], e, rfl, .nil, heval, hlevel, trivial, trivial, hdepth⟩
  | @paren pre stack hopens _ =>
    cases h
    exact ⟨_, e, rfl, .paren hopens, heval, hlevel, trivial, trivial, hdepth⟩
  | @unary pre stack op hopens ih =>
    rw [settle] at h
    obtain ⟨w, hw, h⟩ := bind_eq_ok.mp h
    have heval' : (Expr.unary op e).eval lookup = .ok w := by
      rw [Expr.eval, heval]
      exact hw
    have hdepth' : depth stack + (Expr.unary op e).nesting 0 < maxDepth := by
      rw [Expr.nesting, Expr.nesting_of_le hlevel]
      change 1 + depth stack + e.nesting 0 < maxDepth at hdepth
      omega
    obtain ⟨pre', e', hpre, hholds⟩ := ih heval' (Nat.le_refl _) hdepth' h
    refine ⟨pre', e', ?_, hholds⟩
    rw [← hpre, Expr.lexemes, Expr.lexemes_of_le hlevel, List.append_assoc]
    rfl
  | @binary pre stack w l op hopens haccepts hlevel' heval' hdepth' _ =>
    cases h
    refine ⟨_, e, rfl, .binary l op hopens haccepts hlevel' heval' hdepth', heval, hlevel, ?_,
      trivial, hdepth⟩
    exact Nat.lt_of_lt_of_le (precedence_lt op) hlevel

/-- Infixed operators take up their right operand. -/
theorem exists_holds_of_reduce {n : ℕ} {pre : List Lexeme} {e : Expr} {v v' : Int64}
    (hholds : Holds lookup n pre e v stack) (h : reduce n v stack = .ok (v', stack')) :
    ∃ pre' e', pre ++ e.lexemes 0 = pre' ++ e'.lexemes 0 ∧ Holds lookup n pre' e' v' stack' ∧
      Accepts stack' n := by
  obtain ⟨hopens, heval, hlevel, haccepts, hsettled, hdepth⟩ := hholds
  induction hopens generalizing e v with
  | nil =>
    cases h
    exact ⟨[], e, rfl, ⟨.nil, heval, hlevel, trivial, trivial, hdepth⟩, trivial⟩
  | @paren pre stack hopens _ =>
    cases h
    exact ⟨_, e, rfl, ⟨.paren hopens, heval, hlevel, trivial, trivial, hdepth⟩, trivial⟩
  | unary op hopens _ => exact hsettled.elim
  | @binary pre stack a l op hopens haccepts' hlevel' heval' hdepth' ih =>
    rw [reduce] at h
    split at h
    · next hn =>
      -- the left operand, the operator and the value become one expression above a shorter stack
      obtain ⟨w, hw, h⟩ := bind_eq_ok.mp h
      have hright : precedence op + 1 ≤ e.level := haccepts
      have heval'' : (Expr.binary op l e).eval lookup = .ok w := by
        rw [Expr.eval, heval', heval]
        exact hw
      have hdepth'' : depth stack + (Expr.binary op l e).nesting 0 < maxDepth := by
        rw [Expr.nesting, if_pos (Nat.zero_le _), Expr.nesting_of_le hlevel',
          Expr.nesting_of_le hright]
        change 0 + depth stack + e.nesting 0 < maxDepth at hdepth
        omega
      have hn' : n ≤ precedence op := power_eq_precedence op ▸ hn
      obtain ⟨pre', e', hpre, hholds⟩ := ih h heval'' hn' haccepts'
        (haccepts'.settled (precedence_lt op)) hdepth''
      refine ⟨pre', e', ?_, hholds⟩
      rw [← hpre, Expr.lexemes, if_pos (Nat.zero_le _), Expr.lexemes_of_le hlevel',
        Expr.lexemes_of_le hright]
      simp
    · next hn =>
      cases h
      refine ⟨_, e, rfl, ⟨.binary l op hopens haccepts' hlevel' heval' hdepth', heval, hlevel,
        haccepts, trivial, hdepth⟩, ?_⟩
      show precedence op < n
      rw [← power_eq_precedence]
      omega

/-- A lexeme where an operand has to start. -/
theorem taken_of_takeOperand {x : Lexeme} {focus : Focus} (hopens : Opens lookup taken stack)
    (hdepth : depth stack < maxDepth) (h : takeOperand lookup stack x.token = .ok (focus, stack')) :
    Taken lookup (taken ++ [x]) stack' focus := by
  -- an operand that is complete with the lexeme
  have hleaf : ∀ (e : Expr) (v : Int64), e.lexemes 0 = [x] → e.nesting 0 = 0 →
      tightest ≤ e.level → e.eval lookup = .ok v →
      ((settle v stack).map fun p => (Focus.value p.1, p.2)) = .ok (focus, stack') →
      Taken lookup (taken ++ [x]) stack' focus := by
    intro e v hlexemes hnesting hlevel heval h
    cases hsettle : settle v stack with
    | error err => rw [hsettle] at h; cases h
    | ok p =>
      obtain ⟨v', stack''⟩ := p
      rw [hsettle] at h
      cases h
      rw [← hlexemes]
      exact exists_holds_of_settle hopens heval hlevel (by omega) hsettle
  cases x with
  | literal l => exact hleaf (.literal l) _ rfl rfl (Nat.le_refl _) rfl h
  | name i =>
    obtain ⟨v, hv, h⟩ := bind_eq_ok.mp h
    exact hleaf (.name i) v rfl rfl (Nat.le_refl _) hv h
  | operator op =>
    cases op with
    | add => cases h; exact hopens.unary .plus
    | sub => cases h; exact hopens.unary .negate
    | _ => cases h
  | tilde => cases h; exact hopens.unary .complement
  | openParen => cases h; exact hopens.paren
  | closeParen => cases h

theorem eq_operator_of_binary? {x : Lexeme} {op : BinaryOp} (h : x.token.binary? = some op) :
    x = .operator op := by
  cases x with
  | operator op' =>
    rw [binary?_token] at h
    cases h
    rfl
  | _ => cases h

theorem eq_closeParen_of_token {x : Lexeme} (h : x.token = .closeParen) : x = .closeParen := by
  cases x with
  | closeParen => rfl
  | operator op => cases op <;> cases h
  | _ => cases h

/-- A lexeme after a value. -/
theorem taken_of_takeOperator {x : Lexeme} {v : Int64} {focus : Focus}
    (htaken : Taken lookup taken stack (.value v))
    (h : takeOperator text stack v x.token = .ok (focus, stack')) :
    Taken lookup (taken ++ [x]) stack' focus := by
  obtain ⟨pre, e, rfl, hholds⟩ := htaken
  unfold takeOperator at h
  cases hbinary : x.token.binary? with
  | some op =>
    rw [hbinary] at h
    obtain ⟨⟨w, rest⟩, hreduce, h⟩ := bind_eq_ok.mp h
    cases h
    rw [power_eq_precedence] at hreduce
    obtain ⟨pre', e', hpre, hholds', haccepts⟩ :=
      exists_holds_of_reduce (hholds.mono (Nat.le_of_lt (precedence_lt op))) hreduce
    rw [eq_operator_of_binary? hbinary, hpre]
    exact .binary e' op hholds'.opens haccepts hholds'.level hholds'.eval hholds'.depth
  | none =>
    rw [hbinary] at h
    obtain ⟨⟨w, rest⟩, hreduce, h⟩ := bind_eq_ok.mp h
    obtain ⟨pre', e', hpre, hholds', -⟩ :=
      exists_holds_of_reduce (hholds.mono (Nat.zero_le _)) hreduce
    obtain ⟨hopens, heval, -, -, -, hdepth⟩ := hholds'
    -- only a closing parenthesis can follow, and only above an open one
    cases hopens with
    | nil => cases h
    | unary op hopens => cases h
    | binary l op hopens => cases h
    | @paren pre stack hopens =>
      dsimp only at h
      split at h
      · next hclose =>
        obtain ⟨⟨w', rest⟩, hsettle, h⟩ := bind_eq_ok.mp h
        cases h
        have hdepth' : depth stack + (Expr.paren e').nesting 0 < maxDepth := by
          rw [Expr.nesting]
          change 1 + depth stack + e'.nesting 0 < maxDepth at hdepth
          omega
        have hlexemes : pre ++ [Lexeme.openParen] ++ e'.lexemes 0 ++ [Lexeme.closeParen] =
            pre ++ (Expr.paren e').lexemes 0 := by
          simp [Expr.lexemes]
        rw [eq_closeParen_of_token hclose, hpre, hlexemes]
        exact exists_holds_of_settle hopens heval (Nat.le_refl _) hdepth' hsettle
      · cases h

/-- What the evaluator has taken when it returns a value is the print of an expression. -/
theorem exists_expr_of_run {ls : List Lexeme} {focus : Focus} {v : Int64}
    (htaken : Taken lookup taken stack focus)
    (h : run lookup text focus stack (ls.map (·.token)) = .ok v) :
    ∃ e : Expr, e.lexemes 0 = taken ++ ls ∧ e.nesting 0 < maxDepth ∧ e.eval lookup = .ok v := by
  induction ls generalizing taken stack focus with
  | nil =>
    cases focus with
    | operand =>
      rw [List.map_nil, run] at h
      split at h <;> cases h
    | value w =>
      rw [List.map_nil, run] at h
      obtain ⟨⟨w', rest⟩, hreduce, h⟩ := bind_eq_ok.mp h
      obtain ⟨pre, e, rfl, hholds⟩ := htaken
      obtain ⟨pre', e', hpre, ⟨hopens, heval, -, -, -, hdepth⟩, -⟩ :=
        exists_holds_of_reduce (hholds.mono (Nat.zero_le _)) hreduce
      -- at the end nothing may be left open
      cases hopens with
      | nil =>
        cases h
        refine ⟨e', ?_, ?_, heval⟩
        · rw [List.append_nil, hpre]
          rfl
        · change 0 + e'.nesting 0 < maxDepth at hdepth
          omega
      | paren hopens => cases h
      | unary op hopens => cases h
      | binary l op hopens => cases h
  | cons x ls ih =>
    have hstep : ∃ focus' stack', Taken lookup (taken ++ [x]) stack' focus' ∧
        run lookup text focus' stack' (ls.map (·.token)) = .ok v := by
      rw [List.map_cons] at h
      cases focus with
      | operand =>
        rw [run] at h
        split at h
        · cases h
        · next hdepth =>
          obtain ⟨⟨focus', stack'⟩, htake, h⟩ := bind_eq_ok.mp h
          exact ⟨focus', stack', taken_of_takeOperand htaken (Nat.not_le.mp hdepth) htake, h⟩
      | value w =>
        rw [run] at h
        obtain ⟨⟨focus', stack'⟩, htake, h⟩ := bind_eq_ok.mp h
        exact ⟨focus', stack', taken_of_takeOperator htaken htake, h⟩
    obtain ⟨focus', stack', htaken', h'⟩ := hstep
    obtain ⟨e, hlexemes, hrest⟩ := ih htaken' h'
    exact ⟨e, by rw [hlexemes, List.append_assoc]; rfl, hrest⟩

end ScriptExport.Constant
