import Mathlib.Data.List.Perm.Basic
import Mathlib.Data.List.Sort
import ScriptExport.Trace.Memory

/-!
# Type statistics

The rows of a statistic hold each name that occurs, with the number of its occurrences (`Counts`). They
stand for the list in which each name is repeated as often as its number says (`expand`), and to count
one more name is to add it to that list (`Counts.countName`). The runs of a sorted list grow in the
same way (`counts_runs`). Given an order the rows are unique (`Counts.unique`), so it does not matter
when each name was counted.
-/

namespace ScriptExport

/-! ## What rows stand for -/

/-- The names that rows stand for. -/
def expand (rows : List (String × Nat)) : List String :=
  rows.flatMap fun e => List.replicate e.2 e.1

@[simp] theorem expand_cons (e : String × Nat) (rows : List (String × Nat)) :
    expand (e :: rows) = List.replicate e.2 e.1 ++ expand rows := rfl

variable {rows : List (String × Nat)}

theorem mem_expand {name : String} : name ∈ expand rows ↔ ∃ e ∈ rows, e.1 = name ∧ 0 < e.2 := by
  simp only [expand, List.mem_flatMap, List.mem_replicate]
  grind

theorem count_expand (hdistinct : (rows.map Prod.fst).Nodup) {e : String × Nat} (he : e ∈ rows) :
    (expand rows).count e.1 = e.2 := by
  induction rows with
  | nil => cases he
  | cons r rows ih =>
    obtain ⟨hr, hrows⟩ := List.nodup_cons.mp hdistinct
    rw [expand_cons, List.count_append]
    rcases List.mem_cons.mp he with rfl | he
    · have hnone : (expand rows).count e.1 = 0 := by
        rw [List.count_eq_zero, mem_expand]
        rintro ⟨f, hf, hname, -⟩
        exact hr (hname ▸ List.mem_map_of_mem hf)
      rw [hnone, List.count_replicate_self, Nat.add_zero]
    · have hne : r.1 ≠ e.1 := by
        intro heq
        exact hr (heq ▸ List.mem_map_of_mem he)
      rw [List.count_replicate, if_neg (by simpa using hne), ih hrows he, Nat.zero_add]

theorem expand_countName (name : String) (rows : List (String × Nat)) :
    (expand (countName name rows)).Perm (name :: expand rows) := by
  induction rows with
  | nil => exact .refl _
  | cons e rows ih =>
    rw [countName]
    split
    · exact .refl _
    · split
      · next heq => simp [heq, List.replicate_succ]
      · rw [expand_cons, expand_cons]
        exact (ih.append_left _).trans List.perm_middle

/-! ## Counts in an order -/

/-- The rows hold every name that occurs, once and with the number of its occurrences, in an order. -/
structure Counts (before : String × Nat → String × Nat → Prop) (names : List String)
    (rows : List (String × Nat)) : Prop where
  ordered : rows.Pairwise before
  distinct : (rows.map Prod.fst).Nodup
  mem_iff : ∀ name count, (name, count) ∈ rows ↔ 0 < count ∧ names.count name = count

namespace Counts

variable {before before' : String × Nat → String × Nat → Prop} {names others : List String}
  {rows' : List (String × Nat)}

theorem of_expand (hordered : rows.Pairwise before) (hdistinct : (rows.map Prod.fst).Nodup)
    (hpos : ∀ e ∈ rows, 0 < e.2) (hexpand : (expand rows).Perm names) : Counts before names rows where
  ordered := hordered
  distinct := hdistinct
  mem_iff name count := by
    rw [← hexpand.count_eq]
    constructor
    · intro h
      exact ⟨hpos _ h, count_expand hdistinct h⟩
    · rintro ⟨hcount, rfl⟩
      obtain ⟨e, he, rfl, -⟩ := mem_expand.mp (List.count_pos_iff.mp hcount)
      rwa [count_expand hdistinct he]

theorem nil : Counts before [] [] :=
  .of_expand .nil .nil (List.forall_mem_nil _) (.refl _)

theorem expand (h : Counts before names rows) : (expand rows).Perm names := by
  refine List.perm_iff_count.mpr fun name => ?_
  by_cases hrow : ∃ count, (name, count) ∈ rows
  · obtain ⟨count, hrow⟩ := hrow
    rw [count_expand h.distinct hrow, ((h.mem_iff name count).mp hrow).2]
  · have hnone : names.count name = 0 := by
      by_contra hne
      exact hrow ⟨_, (h.mem_iff name _).mpr ⟨Nat.pos_of_ne_zero hne, rfl⟩⟩
    rw [hnone, List.count_eq_zero, mem_expand]
    rintro ⟨e, he, rfl, -⟩
    exact hrow ⟨e.2, he⟩

/-- Only how often each name occurs matters. -/
theorem of_perm (h : Counts before names rows) (hperm : names.Perm others) :
    Counts before others rows where
  ordered := h.ordered
  distinct := h.distinct
  mem_iff name count := by rw [← hperm.count_eq, h.mem_iff]

/-- The rows may be put in another order. -/
theorem reorder (h : Counts before names rows) (hperm : rows'.Perm rows)
    (hordered : rows'.Pairwise before') : Counts before' names rows' where
  ordered := hordered
  distinct := (hperm.map Prod.fst).nodup_iff.mpr h.distinct
  mem_iff name count := by rw [hperm.mem_iff, h.mem_iff]

/-- The rows for the same names are the same but for their order. -/
theorem perm (h : Counts before names rows) (h' : Counts before' names rows') : rows.Perm rows' := by
  refine (List.perm_ext_iff_of_nodup h.distinct.of_map h'.distinct.of_map).mpr ?_
  rintro ⟨name, count⟩
  rw [h.mem_iff, h'.mem_iff]

/-- Names are counted in one way. -/
theorem unique (h : Counts before names rows) (h' : Counts before names rows')
    (hasymm : ∀ a b, before a b → ¬ before b a) : rows = rows' :=
  (h.perm h').eq_of_pairwise (fun a b _ _ hab hba => absurd hba (hasymm a b hab)) h.ordered h'.ordered

end Counts

/-! ## Rows in name order -/

/-- The name of the first row comes first. -/
def NameBefore (a b : String × Nat) : Prop :=
  a.1 < b.1

theorem pos_of_mem_countName {name : String} (h : ∀ e ∈ rows, 0 < e.2) :
    ∀ e ∈ countName name rows, 0 < e.2 := by
  induction rows with
  | nil => simp [countName]
  | cons d rows ih =>
    obtain ⟨hd, hrows⟩ := List.forall_mem_cons.mp h
    rw [countName]
    split
    · exact List.forall_mem_cons.mpr ⟨Nat.one_pos, h⟩
    · split
      · exact List.forall_mem_cons.mpr ⟨Nat.succ_pos d.2, hrows⟩
      · exact List.forall_mem_cons.mpr ⟨hd, ih hrows⟩

/-- Counting a name once more. -/
theorem Counts.countName {names : List String} (h : Counts NameBefore names rows) (name : String) :
    Counts NameBefore (name :: names) (countName name rows) := by
  have hordered := pairwise_countName name h.ordered
  refine .of_expand hordered (List.pairwise_map.mpr (hordered.imp fun hlt => String.ne_of_lt hlt)) ?_ ?_
  · exact pos_of_mem_countName fun e he => ((h.mem_iff e.1 e.2).mp he).1
  · exact (expand_countName name rows).trans (h.expand.cons name)

/-- In front of later names, a run grows in the same way as a count. -/
theorem addRun_eq_countName {name : String} (h : ∀ e ∈ rows, name ≤ e.1) :
    addRun name rows = countName name rows := by
  cases rows with
  | nil => rfl
  | cons e rows =>
    have hle : name ≤ e.1 := h e List.mem_cons_self
    rw [addRun, countName]
    by_cases heq : e.1 = name
    · rw [if_pos heq, if_neg (heq ▸ String.lt_irrefl e.1), if_pos heq]
    · have hlt : name < e.1 := String.not_le.mp fun hge => heq (String.le_antisymm hge hle)
      rw [if_neg heq, if_pos hlt]

theorem counts_runs {names : List String} (h : names.Pairwise (· ≤ ·)) :
    Counts NameBefore names (runs names) := by
  induction names with
  | nil => exact .nil
  | cons name names ih =>
    obtain ⟨hname, hnames⟩ := List.pairwise_cons.mp h
    have hlater : ∀ e ∈ runs names, name ≤ e.1 := by
      intro e he
      obtain ⟨hpos, hcount⟩ := ((ih hnames).mem_iff e.1 e.2).mp he
      exact hname e.1 (List.count_pos_iff.mp (hcount ▸ hpos))
    rw [runs, addRun_eq_countName hlater]
    exact (ih hnames).countName name

/-- A tally counts its names. -/
theorem counts_tally (names : List String) : Counts NameBefore names (tally names) := by
  have hsorted : (names.mergeSort fun a b => decide (a ≤ b)).Pairwise (· ≤ ·) := by
    refine (List.pairwise_mergeSort ?_ ?_ names).imp of_decide_eq_true
    · intro a b c hab hbc
      exact decide_eq_true (String.le_trans (of_decide_eq_true hab) (of_decide_eq_true hbc))
    · intro a b
      simpa using String.le_total a b
  exact (counts_runs hsorted).of_perm (List.mergeSort_perm names _)

/-! ## Rows by frequency -/

/-- The first row has the greater number, or the smaller name of two with the same number. -/
def Precedes (a b : String × Nat) : Prop :=
  b.2 < a.2 ∨ a.2 = b.2 ∧ a.1 < b.1

theorem Precedes.asymm {a b : String × Nat} (h : Precedes a b) : ¬ Precedes b a := by
  rcases h with hlt | ⟨heq, hname⟩ <;> rintro (hlt' | ⟨heq', hname'⟩)
  · omega
  · omega
  · omega
  · exact String.lt_asymm hname hname'

/-- Rows with at least the same number come first: a total preorder, as sorting wants it. -/
theorem trans_more (a b c : String × Nat) :
    decide (b.2 ≤ a.2) = true → decide (c.2 ≤ b.2) = true → decide (c.2 ≤ a.2) = true := by
  simp only [decide_eq_true_eq]
  omega

theorem total_more (a b : String × Nat) : (decide (b.2 ≤ a.2) || decide (a.2 ≤ b.2)) = true := by
  simp only [Bool.or_eq_true, decide_eq_true_eq]
  omega

/-- Rows with the same number stay in name order. -/
theorem filter_ranked (names : List String) (count : Nat) :
    (ranked names).filter (·.2 == count) = (tally names).filter (·.2 == count) := by
  have hkept : ((tally names).filter (·.2 == count)).Sublist (ranked names) := by
    refine List.sublist_mergeSort trans_more total_more ?_ List.filter_sublist
    refine List.pairwise_of_forall_mem_list fun a ha b hb => ?_
    have ha : a.2 = count := by simpa using (List.mem_filter.mp ha).2
    have hb : b.2 = count := by simpa using (List.mem_filter.mp hb).2
    exact decide_eq_true (hb.trans ha.symm).le
  have hsub := hkept.filter (·.2 == count)
  rw [List.filter_filter] at hsub
  simp only [Bool.and_self] at hsub
  exact (hsub.eq_of_length ((List.mergeSort_perm _ _).filter _).length_eq.symm).symm

/-- The ranking holds every name that occurs with the number of its occurrences, the most frequent
ones first and equally frequent ones in name order. -/
theorem counts_ranked (names : List String) : Counts Precedes names (ranked names) := by
  have hsorted : (ranked names).Pairwise fun a b => decide (b.2 ≤ a.2) :=
    List.pairwise_mergeSort trans_more total_more _
  refine (counts_tally names).reorder (List.mergeSort_perm _ _) ?_
  refine List.pairwise_iff_forall_sublist.mpr fun {a b} hpair => ?_
  have hle : b.2 ≤ a.2 := of_decide_eq_true (List.pairwise_iff_forall_sublist.mp hsorted hpair)
  rcases Nat.lt_or_eq_of_le hle with hlt | heq
  · exact .inl hlt
  · have hsame := hpair.filter (·.2 == a.2)
    rw [filter_ranked] at hsame
    simp only [heq, beq_self_eq_true, List.filter_cons_of_pos, List.filter_nil] at hsame
    have hname : NameBefore a b := List.pairwise_iff_forall_sublist.mp (counts_tally names).ordered
      (hsame.trans List.filter_sublist)
    exact .inr ⟨heq.symm, hname⟩

end ScriptExport
