import ScriptExport.Proofs.Constant.Parsing

/-!
# The language of constant expressions

The evaluator accepts the texts that spell the print of an expression with a value, nested at most 255
deep, and gives them that value (`evaluate_eq_value_of_print`).
-/

namespace ScriptExport.Constant

/-- The print of an expression is evaluated as the expression, unless a literal is too large. -/
theorem evaluate_of_spells {lookup : String → Option Int64} {text : String} {e : Expr}
    (hspells : Spells (e.lexemes 0) text.toList) (hnesting : e.nesting 0 < maxDepth) :
    (evaluate lookup text).toOption =
      if (e.lexemes 0).all (·.fits) then (e.eval lookup).toOption else none := by
  have htokens := tokens_of_spells hspells (e.separated_lexemes 0)
  unfold evaluate
  rw [toOption_bind, htokens]
  cases (e.lexemes 0).all (·.fits) with
  | false => rfl
  | true =>
    have hempty : ((e.lexemes 0).map (·.token)).isEmpty = false := by
      simp [e.lexemes_ne_nil]
    have haccepts : Accepts [] 0 := trivial
    have hrun := evaluates_lexemes lookup text e 0 [] [] haccepts (Nat.le_refl 0)
      (show 0 + e.nesting 0 < maxDepth by omega)
    rw [List.append_nil] at hrun
    simp only [↓reduceIte, Option.bind_some, hempty, Bool.false_eq_true, hrun]
    cases e.eval lookup <;> rfl

/-- A text with a value is the print of an expression with that value. -/
theorem exists_expr_of_evaluate {lookup : String → Option Int64} {text : String} {v : Int64}
    (h : evaluate lookup text = .ok v) :
    ∃ e : Expr, Spells (e.lexemes 0) text.toList ∧ e.nesting 0 < maxDepth ∧
      (e.lexemes 0).all (·.fits) = true ∧ e.eval lookup = .ok v := by
  unfold evaluate at h
  obtain ⟨ts, htokens, h⟩ := bind_eq_ok.mp h
  split at h
  · cases h
  · obtain ⟨ls, rfl, hfits, hspells⟩ := spells_of_tokens htokens
    have hstart : Taken lookup [] [] .operand := Opens.nil
    obtain ⟨e, hlexemes, hnesting, heval⟩ := exists_expr_of_run hstart h
    rw [List.nil_append] at hlexemes
    exact ⟨e, hlexemes ▸ hspells, hnesting, hlexemes ▸ hfits, heval⟩

/-- **The evaluator implements the grammar.** A text that spells the print of an expression, with any
blanks between the lexemes, and with no leaf under more than 255 parentheses and prefixed operators,
is evaluated to what the expression means, and fails if it means nothing. Conversely every text with a
value spells the print of such an expression with that value. -/
theorem evaluate_eq_value_of_print (lookup : String → Option Int64) (text : String) :
    (∀ e : Expr, Spells (e.lexemes 0) text.toList → e.nesting 0 ≤ 255 →
      (evaluate lookup text).toOption.map Int64.toInt = e.value lookup) ∧
    ∀ v, evaluate lookup text = .ok v →
      ∃ e : Expr, Spells (e.lexemes 0) text.toList ∧ e.nesting 0 ≤ 255 ∧
        e.value lookup = some v.toInt := by
  constructor
  · intro e hspells hnesting
    rw [evaluate_of_spells hspells (Nat.lt_succ_of_le hnesting), e.value_eq_eval lookup 0]
    split <;> rfl
  · intro v hv
    obtain ⟨e, hspells, hnesting, hfits, heval⟩ := exists_expr_of_evaluate hv
    refine ⟨e, hspells, Nat.le_of_lt_succ hnesting, ?_⟩
    rw [e.value_eq_eval lookup 0, hfits, heval]
    rfl

/-- Precedence, a prefixed operator, a hexadecimal literal and a name known by its last segment. -/
theorem evaluate_eq_value_of_print_mixed :
    let lookup := fun name => if name = "B" then some (5 : Int64) else none
    let text := "0x1F - -(2+ N::B)*3"
    ∃ e : Expr, Spells (e.lexemes 0) text.toList ∧ e.nesting 0 ≤ 255 ∧
      (evaluate lookup text).toOption.map Int64.toInt = some 52 ∧ e.value lookup = some 52 := by
  intro lookup text
  let hex : Literal :=
    ⟨'0', ['x', '1', 'F'], .hexadecimal, [1, 15], [], rfl, List.all_eq_true.mp rfl, by decide,
      by decide, by decide, List.forall_mem_nil _, by decide⟩
  let two : Literal :=
    ⟨'2', [], .decimal, [2], [], rfl, List.forall_mem_nil _, by decide, by decide, by decide,
      List.forall_mem_nil _, by decide⟩
  let three : Literal :=
    ⟨'3', [], .decimal, [3], [], rfl, List.forall_mem_nil _, by decide, by decide, by decide,
      List.forall_mem_nil _, by decide⟩
  let qualified : Identifier := ⟨[['N'], ['B']], by simp; decide, rfl⟩
  let e : Expr :=
    .binary .sub (.literal hex)
      (.binary .mul (.unary .negate (.binary .add (.literal two) (.name qualified)))
        (.literal three))
  have hlexemes : e.lexemes 0 = [.literal hex, .operator .sub, .operator .sub, .openParen,
      .literal two, .operator .add, .name qualified, .closeParen, .operator .mul,
      .literal three] := rfl
  have htext : text.toList = hex.text ++ ' ' :: '-' :: ' ' :: '-' :: '(' :: two.text ++ '+' ::
      ' ' :: qualified.text ++ ')' :: '*' :: three.text ++ [] := by decide
  have hspells : Spells (e.lexemes 0) text.toList := by
    rw [hlexemes, htext]
    exact .lexeme (.literal hex) <| .blank ' ' rfl <| .lexeme (.operator .sub) <| .blank ' ' rfl <|
      .lexeme (.operator .sub) <| .lexeme .openParen <| .lexeme (.literal two) <|
      .lexeme (.operator .add) <| .blank ' ' rfl <| .lexeme (.name qualified) <|
      .lexeme .closeParen <| .lexeme (.operator .mul) <| .lexeme (.literal three) .nil
  have hnesting : e.nesting 0 ≤ 255 := by decide
  have hvalue : e.value lookup = some 52 := by decide
  exact ⟨e, hspells, hnesting,
    ((evaluate_eq_value_of_print lookup text).1 e hspells hnesting).trans hvalue, hvalue⟩

end ScriptExport.Constant
