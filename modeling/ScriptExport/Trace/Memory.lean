import ScriptExport.Trace.Sink

/-!
# Traces in memory

A sink that keeps what it is told: the lines of events in their order, and how often each type was
seen. It has nothing to finish.
-/

namespace ScriptExport

/-- Names with counts, in name order. -/
structure NameCounts where
  entries : List (String × Nat) := []
  ordered : entries.Pairwise fun a b => a.1 < b.1 := by exact .nil

/-- Count a name in a list that is in name order. -/
def countName (name : String) : List (String × Nat) → List (String × Nat)
  | [] => [(name, 1)]
  | e :: es =>
    if name < e.1 then (name, 1) :: e :: es
    else if e.1 = name then (e.1, e.2 + 1) :: es
    else e :: countName name es

/-- Counting brings in no other name. -/
theorem fst_of_mem_countName {name : String} {es : List (String × Nat)} {e : String × Nat}
    (h : e ∈ countName name es) : e.1 = name ∨ ∃ f ∈ es, f.1 = e.1 := by
  induction es with
  | nil => exact .inl (congrArg Prod.fst (List.mem_singleton.mp h))
  | cons d es ih =>
    rw [countName] at h
    split at h
    · rcases List.mem_cons.mp h with rfl | h
      · exact .inl rfl
      · exact .inr ⟨e, h, rfl⟩
    · split at h
      · rcases List.mem_cons.mp h with rfl | h
        · exact .inr ⟨d, List.mem_cons_self, rfl⟩
        · exact .inr ⟨e, List.mem_cons_of_mem d h, rfl⟩
      · rcases List.mem_cons.mp h with rfl | h
        · exact .inr ⟨e, List.mem_cons_self, rfl⟩
        · rcases ih h with h | ⟨f, hf, h⟩
          · exact .inl h
          · exact .inr ⟨f, List.mem_cons_of_mem d hf, h⟩

/-- Counting a name keeps the rows in the order of their names. -/
theorem pairwise_countName (name : String) {es : List (String × Nat)}
    (h : es.Pairwise fun a b => a.1 < b.1) :
    (countName name es).Pairwise fun a b => a.1 < b.1 := by
  induction es with
  | nil => exact List.pairwise_singleton _ _
  | cons d es ih =>
    obtain ⟨hd, hes⟩ := List.pairwise_cons.mp h
    rw [countName]
    split
    · next hlt =>
      refine List.pairwise_cons.mpr ⟨fun f hf => ?_, h⟩
      rcases List.mem_cons.mp hf with rfl | hf
      · exact hlt
      · exact String.lt_trans hlt (hd f hf)
    · next hlt =>
      split
      · exact List.pairwise_cons.mpr ⟨hd, hes⟩
      · next hne =>
        refine List.pairwise_cons.mpr ⟨fun f hf => ?_, ih hes⟩
        rcases fst_of_mem_countName hf with hname | ⟨g, hg, hsame⟩
        · have hle : ¬ name ≤ d.1 := fun hle => hne (String.le_antisymm (String.not_lt.mp hlt) hle)
          rw [hname]
          exact String.not_le.mp hle
        · rw [← hsame]
          exact hd g hg

namespace NameCounts

/-- Count a name once more. -/
def add (c : NameCounts) (name : String) : NameCounts :=
  ⟨countName name c.entries, pairwise_countName name c.ordered⟩

/-- How often a name was counted. -/
def count (c : NameCounts) (name : String) : Nat :=
  ((c.entries.find? fun e => e.1 == name).map (·.2)).getD 0

end NameCounts

/-- A sink that keeps traces in memory. -/
structure MemorySink where
  /-- The lines of events, in order. -/
  events : List String := []
  /-- How often each type was seen. -/
  counts : NameCounts := {}

namespace MemorySink

/-- Tell the sink one thing. -/
def step (s : MemorySink) : SinkStep → MemorySink
  | .event line => { s with events := s.events ++ [line] }
  | .typeSeen text => { s with counts := s.counts.add text }
  | .finish => s

/-- Tell the sink several things. -/
def run (s : MemorySink) (steps : List SinkStep) : MemorySink :=
  steps.foldl step s

end MemorySink

end ScriptExport
