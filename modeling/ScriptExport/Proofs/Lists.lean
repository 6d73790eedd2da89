/-!
# Lists and options

Lists without their repetitions, the first element of a list with a property, folds that may fail, and
related options.
-/

namespace ScriptExport

variable {α : Type} {l k : List α} {P : α → Prop}

/-! ## Lists without repeated elements -/

section EraseDups

variable [DecidableEq α]

/-- Without repetitions nothing is dropped. -/
theorem eraseDups_of_nodup (h : l.Nodup) : l.eraseDups = l := by
  induction l with
  | nil => rfl
  | cons a l ih =>
    obtain ⟨hnew, hl⟩ := List.nodup_cons.mp h
    have hfilter : l.filter (fun b => !b == a) = l :=
      List.filter_eq_self.mpr fun b hb => by simpa using fun hba : b = a => hnew (hba ▸ hb)
    rw [List.eraseDups_cons, hfilter, ih hl]

/-- Repetitions and what does not pass a test can be dropped in either order. -/
theorem eraseDups_filter (p : α → Bool) (l : List α) :
    (l.filter p).eraseDups = l.eraseDups.filter p := by
  match l with
  | [] => rfl
  | a :: l =>
    -- what follows the first element is shorter once that element is taken out of it
    have ih := eraseDups_filter p (l.filter fun b => !b == a)
    rw [List.eraseDups_cons, List.filter_cons, List.filter_cons]
    split
    · rw [List.eraseDups_cons, ← ih, List.filter_filter, List.filter_filter]
      simp only [Bool.and_comm]
    · next ha =>
      rw [← ih, List.filter_filter]
      refine congrArg List.eraseDups (List.filter_congr fun b _ => ?_)
      by_cases hb : b = a
      · simp [hb, ha]
      · simp [hb]
  termination_by l.length
  decreasing_by exact Nat.lt_succ_of_le (List.length_filter_le _ _)

theorem nodup_eraseDups (l : List α) : l.eraseDups.Nodup := by
  match l with
  | [] => exact List.nodup_nil
  | a :: l =>
    rw [List.eraseDups_cons]
    exact List.nodup_cons.mpr ⟨by simp, nodup_eraseDups (l.filter fun b => !b == a)⟩
  termination_by l.length
  decreasing_by exact Nat.lt_succ_of_le (List.length_filter_le _ _)

theorem eraseDups_append_eraseDups (l k : List α) :
    (l ++ k.eraseDups).eraseDups = (l ++ k).eraseDups := by
  rw [List.eraseDups_append, List.eraseDups_append, List.removeAll, List.removeAll, eraseDups_filter,
    eraseDups_filter, eraseDups_of_nodup (nodup_eraseDups k)]

theorem eraseDups_eraseDups_append (l k : List α) :
    (l.eraseDups ++ k).eraseDups = (l ++ k).eraseDups := by
  have hsame : k.removeAll l.eraseDups = k.removeAll l :=
    List.filter_congr fun a _ => by simp
  rw [List.eraseDups_append, List.eraseDups_append, hsame, eraseDups_of_nodup (nodup_eraseDups l)]

/-- What has been there before adds nothing. -/
theorem eraseDups_append_of_subset (h : k ⊆ l) : (l ++ k).eraseDups = l.eraseDups := by
  have hnone : k.removeAll l = [] :=
    List.filter_eq_nil_iff.mpr fun a ha => by simpa using h ha
  rw [List.eraseDups_append, hnone, List.eraseDups_nil, List.append_nil]

end EraseDups

/-! ## Elements with a property -/

/-- A list can be split in one way at the only element with a property. -/
theorem eq_of_append_cons_eq {before after before' after' : List α} {a a' : α}
    (honly : ∀ x ∈ before ++ after, ¬ P x)
    (h : before ++ a :: after = before' ++ a' :: after') (ha' : P a') :
    before' = before ∧ a' = a := by
  rcases List.append_eq_append_iff.mp h with ⟨x, rfl, htail⟩ | ⟨x, rfl, htail⟩
  · rcases List.cons_eq_append_iff.mp htail with ⟨rfl, heq⟩ | ⟨x', rfl, rfl⟩
    · exact ⟨List.append_nil _, (List.cons.inj heq).1⟩
    · exact absurd ha' (honly a' (by simp))
  · rcases List.cons_eq_append_iff.mp htail with ⟨rfl, heq⟩ | ⟨x', rfl, -⟩
    · exact ⟨(List.append_nil _).symm, (List.cons.inj heq).1.symm⟩
    · exact absurd ha' (honly a' (by simp))

/-- Something that holds at a place of a list holds at a first place. -/
theorem exists_first_place {i : Nat} {a : α} (ha : l[i]? = some a) (hp : P a) :
    ∃ j b, j ≤ i ∧ l[j]? = some b ∧ P b ∧ ∀ c ∈ l.take j, ¬ P c := by
  induction l generalizing i with
  | nil => cases ha
  | cons b l ih =>
    by_cases hb : P b
    · exact ⟨0, b, Nat.zero_le i, rfl, hb, List.forall_mem_nil _⟩
    · cases i with
      | zero =>
        cases ha
        exact absurd hp hb
      | succ i =>
        obtain ⟨j, c, hj, hc, hpc, hbefore⟩ := ih ha
        exact ⟨j + 1, c, Nat.succ_le_succ hj, hc, hpc, List.forall_mem_cons.mpr ⟨hb, hbefore⟩⟩

/-- A test that all elements answer alike keeps all of them or none. -/
theorem filter_eq_ite {f : α → Bool} {b : Bool} (h : ∀ a ∈ l, f a = b) :
    l.filter f = if b then l else [] := by
  cases b with
  | true => exact List.filter_eq_self.mpr h
  | false => exact List.filter_eq_nil_iff.mpr fun a ha => by simp [h a ha]

/-- A fold of steps that never fail does not fail. -/
theorem isSome_foldlM {σ : Type} {f : σ → α → Option σ} (hf : ∀ s a, (f s a).isSome = true)
    (l : List α) (s : σ) : (l.foldlM f s).isSome = true := by
  induction l generalizing s with
  | nil => rfl
  | cons a l ih =>
    obtain ⟨t, ht⟩ := Option.isSome_iff_exists.mp (hf s a)
    rw [List.foldlM_cons, ht]
    exact ih t

/-- What something is related to is something. -/
theorem exists_of_rel_some {β : Type} {R : α → β → Prop} {x : α} {o : Option β}
    (h : Option.Rel R (some x) o) : ∃ y, o = some y ∧ R x y := by
  cases h with
  | some hr => exact ⟨_, rfl, hr⟩

end ScriptExport
