import ScriptExport.Text.Blank

/-!
# Segments of a text

Cutting a text at separators and putting it together again. `segments p` cuts at every character
that satisfies `p` and keeps empty segments, so that a text with `n` separators has `n + 1` of them;
`words` keeps the non-empty segments between blanks; `cutAt` cuts at the first separator only.
-/

namespace ScriptExport.Text

/-- The segments between the characters that satisfy `p`, empty ones included. -/
def segments (p : Char → Bool) : List Char → List (List Char)
  | [] => [[]]
  | c :: cs =>
    if p c then [] :: segments p cs
    else match segments p cs with
      | [] => [[c]]
      | s :: ss => (c :: s) :: ss

/-- The non-empty segments between blanks. -/
def words (cs : List Char) : List (List Char) :=
  (segments isBlank cs).filter (fun w => !w.isEmpty)

/-- What stands before and after the first `sep`, if there is one. -/
def cutAt (sep : Char) : List Char → Option (List Char × List Char)
  | [] => none
  | c :: cs =>
    if c = sep then some ([], cs)
    else (cutAt sep cs).map fun (before, after) => (c :: before, after)

/-- The segments one after the other, with `sep` between neighbours. -/
def joinChars (sep : List Char) : List (List Char) → List Char
  | [] => []
  | [s] => s
  | s :: ss => s ++ sep ++ joinChars sep ss

/-- The texts one after the other, with `sep` between neighbours. -/
def join (sep : String) : List String → String
  | [] => ""
  | [s] => s
  | s :: ss => s ++ sep ++ join sep ss

/-- The rest of `s` after `head`, if `s` starts with it. -/
def after? (head s : List Char) : Option (List Char) :=
  match head, s with
  | [], s => some s
  | _ :: _, [] => none
  | h :: hs, c :: cs => if h = c then after? hs cs else none

/-- Whether `s` starts with `head`. -/
def startsWith (head s : String) : Bool :=
  (after? head.toList s.toList).isSome

@[simp] theorem segments_nil (p : Char → Bool) : segments p [] = [[]] := rfl

theorem segments_ne_nil (p : Char → Bool) (cs : List Char) : segments p cs ≠ [] := by
  cases cs with
  | nil => simp
  | cons c cs =>
    rw [segments]
    split
    · simp
    · split <;> simp

variable {cs : List Char}

theorem segments_of_none {p : Char → Bool} (h : ∀ c ∈ cs, p c = false) : segments p cs = [cs] := by
  induction cs with
  | nil => rfl
  | cons c cs ih =>
    rw [segments, if_neg (by simp [h c List.mem_cons_self]),
      ih fun d hd => h d (List.mem_cons_of_mem c hd)]

/-- The first separator ends the first segment. -/
theorem segments_append_cons {p : Char → Bool} (h : ∀ c ∈ cs, p c = false) {d : Char}
    (hd : p d = true) (ds : List Char) : segments p (cs ++ d :: ds) = cs :: segments p ds := by
  induction cs with
  | nil => rw [List.nil_append, segments, if_pos hd]
  | cons c cs ih =>
    rw [List.cons_append, segments, if_neg (by simp [h c List.mem_cons_self]),
      ih fun d hd => h d (List.mem_cons_of_mem c hd)]

theorem joinChars_cons {ss : List (List Char)} (hss : ss ≠ []) (sep s : List Char) :
    joinChars sep (s :: ss) = s ++ sep ++ joinChars sep ss := by
  cases ss with
  | nil => exact absurd rfl hss
  | cons t ss => rfl

/-- A join of two lists has one separator between their joins. -/
theorem joinChars_append {ss ts : List (List Char)} (hss : ss ≠ []) (hts : ts ≠ []) (sep : List Char) :
    joinChars sep (ss ++ ts) = joinChars sep ss ++ sep ++ joinChars sep ts := by
  induction ss with
  | nil => exact absurd rfl hss
  | cons s ss ih =>
    rw [List.cons_append, joinChars_cons (List.append_ne_nil_of_right_ne_nil ss hts)]
    cases ss with
    | nil => rfl
    | cons u ss =>
      rw [ih (List.cons_ne_nil u ss), joinChars_cons (List.cons_ne_nil u ss)]
      simp only [List.append_assoc]

theorem joinChars_concat {ss : List (List Char)} (hss : ss ≠ []) (sep s : List Char) :
    joinChars sep (ss ++ [s]) = joinChars sep ss ++ sep ++ s :=
  joinChars_append hss (List.cons_ne_nil s []) sep

theorem cutAt_append {sep : Char} (h : sep ∉ cs) (ds : List Char) :
    cutAt sep (cs ++ sep :: ds) = some (cs, ds) := by
  induction cs with
  | nil => simp [cutAt]
  | cons c cs ih =>
    rw [List.mem_cons, not_or] at h
    rw [List.cons_append, cutAt, if_neg (Ne.symm h.1), ih h.2]
    rfl

theorem cutAt_of_not_mem {sep : Char} (h : sep ∉ cs) : cutAt sep cs = none := by
  induction cs with
  | nil => rfl
  | cons c cs ih =>
    rw [List.mem_cons, not_or] at h
    rw [cutAt, if_neg (Ne.symm h.1), ih h.2]
    rfl

/-- A cut is made at the first separator. -/
theorem cutAt_eq_some_iff {sep : Char} {before after : List Char} :
    cutAt sep cs = some (before, after) ↔ cs = before ++ sep :: after ∧ sep ∉ before := by
  constructor
  · intro h
    by_cases hmem : sep ∈ cs
    · obtain ⟨as, bs, rfl, has⟩ := List.eq_append_cons_of_mem hmem
      rw [cutAt_append has] at h
      cases h
      exact ⟨rfl, has⟩
    · rw [cutAt_of_not_mem hmem] at h
      cases h
  · rintro ⟨rfl, hbefore⟩
    exact cutAt_append hbefore after

/-- What stands before and behind the first separator. -/
theorem takeWhile_eq_of_cutAt {sep : Char} {before after : List Char}
    (h : cutAt sep cs = some (before, after)) :
    cs.takeWhile (· ≠ sep) = before ∧ (cs.dropWhile (· ≠ sep)).tail = after := by
  obtain ⟨rfl, hbefore⟩ := cutAt_eq_some_iff.mp h
  have hpass : ∀ c ∈ before, decide (c ≠ sep) = true := fun c hc =>
    decide_eq_true fun heq => hbefore (heq ▸ hc)
  rw [List.takeWhile_append_of_pos hpass, List.dropWhile_append_of_pos hpass]
  simp

/-- Without a separator all of the text stands before. -/
theorem takeWhile_eq_self_of_cutAt {sep : Char} (h : cutAt sep cs = none) :
    cs.takeWhile (· ≠ sep) = cs ∧ (cs.dropWhile (· ≠ sep)).tail = [] := by
  have hpass : ∀ c ∈ cs, decide (c ≠ sep) = true := by
    intro c hc
    refine decide_eq_true ?_
    rintro rfl
    obtain ⟨before, after, hcs, hbefore⟩ := List.eq_append_cons_of_mem hc
    rw [hcs, cutAt_append hbefore] at h
    cases h
  have htake : (cs ++ []).takeWhile (· ≠ sep) = cs ++ [] := List.takeWhile_append_of_pos hpass
  have hdrop : (cs ++ []).dropWhile (· ≠ sep) = [] := List.dropWhile_append_of_pos hpass
  rw [List.append_nil] at htake hdrop
  exact ⟨htake, congrArg List.tail hdrop⟩

theorem after?_append (head s : List Char) : after? head (head ++ s) = some s := by
  induction head with
  | nil => cases s <;> simp [after?]
  | cons h hs ih => simp [after?, ih]

theorem after?_eq (head s : List Char) :
    after? head s = if head.isPrefixOf s then some (s.drop head.length) else none := by
  induction head generalizing s with
  | nil => cases s <;> simp [after?]
  | cons h head ih =>
    cases s with
    | nil => simp [after?]
    | cons c s =>
      rw [after?]
      by_cases hc : h = c
      · simp [hc, ih]
      · simp [hc]

/-- What is found behind a head was behind it. -/
theorem eq_append_of_after? {head s rest : List Char} (h : after? head s = some rest) :
    s = head ++ rest := by
  induction head generalizing s with
  | nil => cases s <;> simp_all [after?]
  | cons c head ih =>
    cases s with
    | nil => simp [after?] at h
    | cons d s =>
      simp only [after?] at h
      split at h
      · next e => rw [e, List.cons_append, ih h]
      · cases h

end ScriptExport.Text
