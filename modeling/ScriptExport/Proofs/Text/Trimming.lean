import Mathlib.Data.List.DropRight
import ScriptExport.Text.Blank

/-!
# Trimming

A trimmed text has no blank at its start and none at its end, and such a text stays as it is when it is
trimmed (`trimChars_eq_self`). So trimming twice is trimming once, and what is left of a text is empty
exactly if the text is blank. What is said about the ends of a text holds for any characters that are
dropped there, since not only blanks are.
-/

namespace ScriptExport.Text

/-! ## Dropping at both ends -/

section Ends

variable {p : Char → Bool} {cs : List Char} {c : Char}

theorem head?_dropWhile (h : c ∈ (cs.dropWhile p).head?) : p c = false := by
  have hnot := List.head?_dropWhile_not p cs
  rw [Option.mem_def.mp h] at hnot
  exact hnot

theorem head?_rdropWhile_dropWhile (h : c ∈ ((cs.dropWhile p).rdropWhile p).head?) : p c = false := by
  obtain ⟨rest, hrest⟩ := List.rdropWhile_prefix p (cs.dropWhile p)
  apply head?_dropWhile
  rw [← hrest, List.head?_append]
  exact Option.or_eq_some_iff.mpr (.inl h)

theorem getLast?_rdropWhile (h : c ∈ (cs.rdropWhile p).getLast?) : p c = false := by
  unfold List.rdropWhile at h
  rw [List.getLast?_reverse] at h
  exact head?_dropWhile h

theorem infix_rdropWhile_dropWhile (p : Char → Bool) (cs : List Char) :
    (cs.dropWhile p).rdropWhile p <:+: cs :=
  (List.rdropWhile_prefix p _).isInfix.trans (List.dropWhile_suffix p).isInfix

/-- Nothing is dropped from a text whose ends stay. -/
theorem rdropWhile_dropWhile_eq_self (hhead : ∀ c ∈ cs.head?, p c = false)
    (hlast : ∀ c ∈ cs.getLast?, p c = false) : (cs.dropWhile p).rdropWhile p = cs := by
  have hstart : ∀ ds : List Char, (∀ c ∈ ds.head?, p c = false) → ds.dropWhile p = ds := by
    intro ds h
    cases ds with
    | nil => rfl
    | cons c ds => exact List.dropWhile_cons_of_neg (by simp [h c rfl])
  unfold List.rdropWhile
  rw [hstart cs hhead, hstart cs.reverse (by simpa using hlast), List.reverse_reverse]

end Ends

theorem trimChars_eq_self {cs : List Char} (hhead : ∀ c ∈ cs.head?, isBlank c = false)
    (hlast : ∀ c ∈ cs.getLast?, isBlank c = false) : trimChars cs = cs :=
  rdropWhile_dropWhile_eq_self hhead hlast

theorem trimChars_trimChars (cs : List Char) : trimChars (trimChars cs) = trimChars cs :=
  trimChars_eq_self (fun _ => head?_rdropWhile_dropWhile) (fun _ => getLast?_rdropWhile)

theorem mem_of_mem_trimChars {cs : List Char} {c : Char} (h : c ∈ trimChars cs) : c ∈ cs :=
  (infix_rdropWhile_dropWhile isBlank cs).subset h

theorem trim_trim (s : String) : trim (trim s) = trim s := by
  unfold trim
  rw [String.toList_ofList, trimChars_trimChars]

/-- What a text begins with, a longer one begins with. -/
theorem head?_append {s : String} {c : Char} (h : s.toList.head? = some c) (t : String) :
    (s ++ t).toList.head? = some c := by
  rw [String.toList_append, List.head?_append, h]
  rfl

/-! ## Blank texts -/

/-- A text is blank if its parts are. -/
theorem isBlankText_append (s t : String) :
    isBlankText (s ++ t) = (isBlankText s && isBlankText t) := by
  simp [isBlankText, String.toList_append, List.all_append]

theorem all_dropWhile {α : Type} (p : α → Bool) (l : List α) : (l.dropWhile p).all p = l.all p := by
  induction l with
  | nil => rfl
  | cons a l ih =>
    cases ha : p a with
    | true => rw [List.dropWhile_cons_of_pos ha, ih, List.all_cons, ha, Bool.true_and]
    | false => rw [List.dropWhile_cons_of_neg (by simp [ha])]

/-- Trimming a text leaves something unless the text is blank. -/
theorem isBlankText_trim (s : String) : isBlankText (trim s) = isBlankText s := by
  unfold isBlankText trim trimChars trimEndChars trimStartChars
  rw [String.toList_ofList, List.all_reverse, all_dropWhile, List.all_reverse, all_dropWhile]

theorem trim_of_isBlankText {s : String} (h : isBlankText s = true) : trim s = "" := by
  have hstart : trimStartChars s.toList = [] :=
    List.dropWhile_eq_nil_iff.mpr (List.all_eq_true.mp h)
  unfold trim trimChars
  rw [hstart]
  rfl

theorem trim_eq_empty_iff {s : String} : trim s = "" ↔ isBlankText s = true := by
  constructor
  · intro h
    rw [← isBlankText_trim, h]
    rfl
  · exact trim_of_isBlankText

/-- What trimming leaves, if anything. -/
theorem trimmed?_eq_some_iff {s t : String} : trimmed? s = some t ↔ trim s = t ∧ t ≠ "" := by
  unfold trimmed?
  split
  · next hblank => simp [trim_of_isBlankText hblank, eq_comm]
  · next hblank =>
    have hne : trim s ≠ "" := fun h => hblank (trim_eq_empty_iff.mp h)
    constructor
    · rintro ⟨⟩
      exact ⟨rfl, hne⟩
    · rintro ⟨rfl, -⟩
      rfl

end ScriptExport.Text
