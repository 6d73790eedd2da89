import Mathlib.Data.Finset.Card
import Mathlib.Order.Bounds.Defs
import ScriptExport.Proofs.Analysis.Containers

/-!
# How fresh names are found

A container whose generated name is taken draws numbers, one after another, until the name with the
number behind it is free. Nothing bounds that loop (`Counter.Draws`). It ends exactly if one of the numbers
that the counter still has makes the name free (`Counter.exists_draws_iff`): a counter that is used up
hands out its last number again and again. While the counter has more numbers left than names are taken,
one of them does (`Counter.exists_free`), and where the loop ends, it ends with what
`Counter.freshName` finds by a search of bounded length (`Counter.freshName_eq_of_draws`).
-/

namespace ScriptExport

namespace Counter

/-- Numbers are drawn until the name with the last one behind it is free: how many draws that takes, the
last number, and the counter that is left. -/
inductive Draws (taken : List String) (name : String) : Counter → Nat → UInt32 → Counter → Prop where
  | last {c : Counter} (free : name ++ toString c.next ∉ taken) :
      Draws taken name c 1 c.next c.advance
  | again {c left : Counter} {draws : Nat} {n : UInt32} (used : name ++ toString c.next ∈ taken)
      (rest : Draws taken name c.advance draws n left) : Draws taken name c (draws + 1) n left

theorem toNat_next_after (n : Nat) :
    (after n).next.toNat = if n + 1 < UInt32.size then n + 1 else UInt32.size - 1 := by
  unfold after
  split
  · exact UInt32.toNat_ofNat_of_lt' (by assumption)
  · rfl

theorem advance_eq_after (c : Counter) : c.advance = after c.next.toNat := by
  have hlt : c.next.toNat < UInt32.size := c.next.toNat_lt
  unfold advance after
  congr 1
  split
  · next hlast =>
    rw [hlast]
    rfl
  · next hlast =>
    have hne : c.next.toNat ≠ UInt32.size - 1 := by
      intro heq
      exact hlast (UInt32.toNat_inj.mp heq)
    rw [if_pos (by omega), UInt32.ofNat_add, UInt32.ofNat_toNat]
    rfl

variable {taken : List String} {name : String} {c left : Counter} {draws : Nat} {n : UInt32}

namespace Draws

theorem free (h : Draws taken name c draws n left) : name ++ toString n ∉ taken := by
  induction h with
  | last free => exact free
  | again _ _ ih => exact ih

theorem left_eq (h : Draws taken name c draws n left) : left = after n.toNat := by
  induction h with
  | last => exact advance_eq_after _
  | again _ _ ih => exact ih

/-- The numbers drawn are those from the counter's next one on. -/
theorem toNat_eq (h : Draws taken name c draws n left) :
    ∃ skipped, draws = skipped + 1 ∧ n.toNat = c.next.toNat + skipped := by
  induction h with
  | last => exact ⟨0, rfl, rfl⟩
  | @again c left draws n used rest ih =>
    obtain ⟨skipped, rfl, hn⟩ := ih
    rw [advance_eq_after, toNat_next_after] at hn
    split at hn
    · exact ⟨skipped + 1, rfl, by omega⟩
    · -- the counter is used up, so the number that was found is the one that is taken
      have hlast : n = c.next := UInt32.toNat_inj.mp (by
        have hc : c.next.toNat < UInt32.size := c.next.toNat_lt
        have hn : n.toNat < UInt32.size := n.toNat_lt
        omega)
      exact absurd (hlast ▸ used) rest.free

theorem used (h : Draws taken name c draws n left) :
    ∀ m, c.next.toNat ≤ m → m < n.toNat → name ++ toString m ∈ taken := by
  induction h with
  | last => intro m hle hlt; omega
  | @again c left draws n used rest ih =>
    intro m hle hlt
    rcases Nat.eq_or_lt_of_le hle with rfl | hlater
    · exact used
    · refine ih m ?_ hlt
      rw [advance_eq_after, toNat_next_after]
      split <;> omega

/-- The loop ends with the least free number. -/
theorem isLeast (h : Draws taken name c draws n left) :
    IsLeast {m : UInt32 | c.next ≤ m ∧ name ++ toString m ∉ taken} n := by
  obtain ⟨skipped, -, hn⟩ := h.toNat_eq
  refine ⟨⟨UInt32.le_iff_toNat_le.mpr (by omega), h.free⟩, ?_⟩
  rintro m ⟨hle, hfree⟩
  by_contra hlt
  rw [UInt32.le_iff_toNat_le] at hle hlt
  exact hfree (h.used m.toNat hle (by omega))

end Draws

/-! ## When the draws end -/

theorem card_of_numbered {count start : Nat} (h : ∀ i < count, name ++ toString (start + i) ∈ taken) :
    count ≤ taken.toFinset.card := by
  rw [List.card_toFinset]
  exact length_of_numbered fun i hi => List.mem_dedup.mpr (h i hi)

theorem Draws.le_card (h : Draws taken name c draws n left) : draws ≤ taken.toFinset.card + 1 := by
  obtain ⟨skipped, rfl, hn⟩ := h.toNat_eq
  exact Nat.succ_le_succ (card_of_numbered fun i hi => h.used _ (Nat.le_add_right _ i) (by omega))

/-- The loop ends exactly if there is a free number. -/
theorem exists_draws_iff : (∃ draws n left, Draws taken name c draws n left) ↔
    ∃ n : UInt32, c.next ≤ n ∧ name ++ toString n ∉ taken := by
  constructor
  · rintro ⟨draws, n, left, h⟩
    exact ⟨n, h.isLeast.1⟩
  · rintro ⟨n, hle, hfree⟩
    -- on the numbers that are left until `n`
    induction hleft : n.toNat - c.next.toNat generalizing c with
    | zero =>
      obtain rfl : c.next = n := UInt32.toNat_inj.mp (by rw [UInt32.le_iff_toNat_le] at hle; omega)
      exact ⟨_, _, _, .last hfree⟩
    | succ k ih =>
      by_cases hnext : name ++ toString c.next ∈ taken
      · have hadvance : c.advance.next.toNat = c.next.toNat + 1 := by
          have hn : n.toNat < UInt32.size := n.toNat_lt
          rw [advance_eq_after, toNat_next_after, if_pos (by omega)]
        have hle' : c.advance.next ≤ n := UInt32.le_iff_toNat_le.mpr (by omega)
        obtain ⟨draws, m, left, hrest⟩ := ih hle' (by omega)
        exact ⟨_, _, _, .again hnext hrest⟩
      · exact ⟨_, _, _, .last hnext⟩

/-- One of the numbers that are left makes the name free if they are more than the taken names. -/
theorem exists_free (hroom : c.next.toNat + taken.toFinset.card < UInt32.size) :
    ∃ n : UInt32, c.next ≤ n ∧ name ++ toString n ∉ taken := by
  by_contra hnone
  push Not at hnone
  have hall : ∀ i < taken.toFinset.card + 1, name ++ toString (c.next.toNat + i) ∈ taken := by
    intro i hi
    have hnat : (UInt32.ofNat (c.next.toNat + i)).toNat = c.next.toNat + i :=
      UInt32.toNat_ofNat_of_lt' (by omega)
    have hmem := hnone (UInt32.ofNat (c.next.toNat + i)) (UInt32.le_iff_toNat_le.mpr (by omega))
    rwa [← hnat]
  have hcard := card_of_numbered hall
  omega

/-! ## The bounded search -/

theorem search_eq {tries start n : Nat} (hstart : start ≤ n) (hbound : n ≤ start + tries)
    (hfree : name ++ toString n ∉ taken)
    (hused : ∀ m, start ≤ m → m < n → name ++ toString m ∈ taken) :
    search taken name tries start = n := by
  induction tries generalizing start with
  | zero => exact Nat.le_antisymm hstart hbound
  | succ tries ih =>
    rw [search]
    rcases Nat.eq_or_lt_of_le hstart with rfl | hlt
    · rw [if_neg hfree]
    · rw [if_pos (hused start (Nat.le_refl start) hlt)]
      exact ih hlt (by omega) fun m hm => hused m (by omega)

/-- The name is the one that the loop ends with. -/
theorem freshName_eq_of_draws (hname : name ∈ taken) (h : Draws taken name c draws n left) :
    c.freshName taken name = (name ++ toString n, left) := by
  obtain ⟨skipped, -, hn⟩ := h.toNat_eq
  have hbound : skipped ≤ taken.length :=
    length_of_numbered fun i hi => h.used _ (Nat.le_add_right _ i) (by omega)
  have hsearch : search taken name taken.length c.next.toNat = n.toNat :=
    search_eq (by omega) (by omega) h.free h.used
  unfold freshName
  rw [if_pos hname, hsearch, h.left_eq]
  rfl

end Counter

open Analysis

/-- **Fresh names are found.** If the counter has more numbers left than names are taken, a container gets
a name that is not taken: the generated one if that is free, and nothing happens then. Otherwise numbers
are drawn, at most one more than there are taken names, until the least one is found that makes the
name free, and one collision is reported. -/
theorem container_name_found (s : State) (h : Header) (generated instantiation : String)
    (hroom : s.counter.next.toNat + s.containerNames.toFinset.card < UInt32.size) :
    let taken := s.containerNames
    let named := s.uniqueContainerName h generated instantiation
    named.1 ∉ taken ∧ (named.1 = generated ↔ generated ∉ taken) ∧
    (generated ∉ taken → named.2 = s) ∧
    (generated ∈ taken → ∃ draws n left,
      Counter.Draws taken generated s.counter draws n left ∧ draws ≤ taken.toFinset.card + 1 ∧
      IsLeast {m : UInt32 | s.counter.next ≤ m ∧ generated ++ toString m ∉ taken} n ∧
      named.1 = generated ++ toString n ∧ named.2.counter = left ∧
      named.2.diagnostics = s.diagnostics.push
        { kind := .nameCollision
          message := "generated name '" ++ generated ++ "' for " ++ instantiation
            ++ " collides with another container, using '" ++ named.1 ++ "'"
          location := h.location }) := by
  intro taken named
  have hfresh : named.1 ∉ taken := uniqueContainerName_not_mem s h generated instantiation
  have hkept : generated ∉ taken → named = (generated, s) := fun hfree => if_neg hfree
  refine ⟨hfresh, ⟨fun heq => heq ▸ hfresh, fun hfree => by rw [hkept hfree]⟩,
    fun hfree => by rw [hkept hfree], fun htaken => ?_⟩
  have hfree : ∃ n : UInt32, s.counter.next ≤ n ∧ generated ++ toString n ∉ taken :=
    Counter.exists_free hroom
  obtain ⟨draws, n, left, hdraws⟩ := Counter.exists_draws_iff.mpr hfree
  have hnamed : named = (generated ++ toString n, State.complain h .nameCollision
      ("generated name '" ++ generated ++ "' for " ++ instantiation
        ++ " collides with another container, using '" ++ (generated ++ toString n) ++ "'")
      { s with counter := left }) := by
    refine (if_pos htaken).trans ?_
    rw [Counter.freshName_eq_of_draws htaken hdraws]
  rw [hnamed]
  exact ⟨draws, n, left, hdraws, hdraws.le_card, hdraws.isLeast, rfl, rfl, rfl⟩

/-- A counter that is almost used up. -/
theorem container_name_found_near_last :
    let s : State :=
      { containerNames := ["IntVector", "IntVector4294967292", "FloatVector"]
        counter := ⟨4294967292⟩ }
    let named := s.uniqueContainerName { name := "Ints" } "IntVector" "std::vector<int>"
    s.counter.next.toNat + s.containerNames.toFinset.card < UInt32.size ∧
      named.1 = "IntVector4294967293" ∧ named.1 ∉ s.containerNames ∧ named.2.diagnostics.size = 1 ∧
      ∃ draws n left, Counter.Draws s.containerNames "IntVector" s.counter draws n left ∧ draws ≤ 4 := by
  intro s named
  have hroom : s.counter.next.toNat + s.containerNames.toFinset.card < UInt32.size := by decide
  obtain ⟨hfresh, -, -, hdrawn⟩ :=
    container_name_found s { name := "Ints" } "IntVector" "std::vector<int>" hroom
  obtain ⟨draws, n, left, hdraws, hle, -, -, -, hreported⟩ := hdrawn (by decide)
  exact ⟨hroom, by decide, hfresh, by rw [hreported]; rfl, draws, n, left, hdraws, hle⟩

end ScriptExport
