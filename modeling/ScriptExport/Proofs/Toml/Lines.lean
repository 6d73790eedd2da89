import ScriptExport.Proofs.Document.Plain
import ScriptExport.Proofs.Toml.Strings
import ScriptExport.Toml.Reader

/-!
# Lines of TOML text

A document is written line by line, and the reader is between lines again after each of them. `Consumes`
puts scanner and reader together: a piece of text takes them from one pair of states to another, whatever
follows. An assignment line puts its value under its key in the table of the header above
(`runs_assignment`), and a header line opens its table (`runs_header`).
-/

namespace ScriptExport

variable {path : List String}

namespace Toml

/-! ## Plain values -/

/-- Whether a value is written without parts. -/
def isAtom : Value → Bool
  | .bool _ | .text _ => true
  | .int n => Value.isInt64 n
  | _ => false

theorem ungroup?_digits {ds : List Char} (hne : ds ≠ []) (hds : ∀ c ∈ ds, c.isDigit = true) :
    ungroup? Char.isDigit ds = some ds := by
  have hsegments : Text.segments (· == '_') ds = [ds] := by
    refine Text.segments_of_none fun c hc => ?_
    have hdigit := hds c hc
    cases heq : c == '_' with
    | false => rfl
    | true =>
      rw [eq_of_beq heq] at hdigit
      cases hdigit
  unfold ungroup?
  dsimp only
  rw [hsegments, if_pos]
  · simp
  · simpa [hne] using hds

theorem decimalDigits?_toDigits (n : Nat) :
    decimalDigits? (Nat.toDigits 10 n) = some (Nat.toDigits 10 n) := by
  have hungroup := ungroup?_digits (Nat.toDigits_ne_nil (n := n) (b := 10))
    fun _ hc => Text.isDigit_of_mem_toDigits hc
  unfold decimalDigits?
  rw [hungroup]
  by_cases hn : n = 0
  · subst hn
    rfl
  · obtain ⟨d, ds, hds, hd, -⟩ := Text.toDigits_eq_cons hn
    rw [hds]
    split
    · next heq => cases heq; exact absurd rfl hd
    · next heq => cases heq; exact absurd rfl hd
    · rfl

theorem mem_toString_int {n : Int} {c : Char} (hc : c ∈ (toString n).toList) :
    c = '-' ∨ c.isDigit = true := by
  rw [Text.toList_toString_int] at hc
  split at hc
  · rcases List.mem_cons.mp hc with rfl | hc
    · exact .inl rfl
    · exact .inr (Text.isDigit_of_mem_toDigits hc)
  · exact .inr (Text.isDigit_of_mem_toDigits hc)

/-- A written integer is read. -/
theorem integer?_toString (n : Int) : integer? (toString n).toList = some n := by
  have hletter : ∀ c : Char, c.isDigit = false → c ≠ '-' → ∀ cs, (toString n).toList ≠ '0' :: c :: cs := by
    intro c hdigit hsign cs heq
    rcases mem_toString_int (n := n) (c := c) (by rw [heq]; simp) with rfl | hc
    · exact hsign rfl
    · rw [hc] at hdigit
      cases hdigit
  unfold integer?
  split
  · next cs heq => exact absurd heq (hletter 'x' rfl (by decide) cs)
  · next cs heq => exact absurd heq (hletter 'o' rfl (by decide) cs)
  · next cs heq => exact absurd heq (hletter 'b' rfl (by decide) cs)
  · rw [Text.toList_toString_int]
    by_cases hneg : n < 0
    · rw [if_pos hneg]
      generalize hk : n.natAbs = k
      have heq : n = -(k : Int) := by omega
      simp [splitSign, decimalDigits?_toDigits, Text.numberValue?_toDigits, heq]
    · rw [if_neg hneg]
      have hsplit : splitSign (Nat.toDigits 10 n.natAbs) = (false, Nat.toDigits 10 n.natAbs) := by
        have hfirst := fun c cs (heq : Nat.toDigits 10 n.natAbs = c :: cs) =>
          Text.isDigit_of_mem_toDigits (n := n.natAbs) (c := c) (by simp [heq])
        unfold splitSign
        split
        · next cs heq => cases hfirst '-' cs heq
        · next cs heq => cases hfirst '+' cs heq
        · rfl
      generalize hk : n.natAbs = k at hsplit ⊢
      have heq : n = (k : Int) := by omega
      simp [hsplit, decimalDigits?_toDigits, Text.numberValue?_toDigits, heq]

theorem wordValue?_int {n : Int} (hn : Value.isInt64 n = true) :
    wordValue? (toString n).toList = some (.int n) := by
  have hne : ∀ w, integer? w = none → (toString n).toList ≠ w := by
    rintro w hw rfl
    rw [integer?_toString] at hw
    cases hw
  have hrange := Value.natAbs_le_of_isInt64 hn
  unfold wordValue?
  rw [if_neg (hne _ rfl), if_neg (hne _ rfl), integer?_toString]
  have hmin : -Int.pow 2 127 ≤ n := by
    have hpow : Int.pow 2 127 = 170141183460469231731687303715884105728 := by decide
    omega
  have hmax : n < Int.pow 2 128 := by
    have hpow : Int.pow 2 128 = 340282366920938463463374607431768211456 := by decide
    omega
  exact if_pos ⟨hmin, hmax⟩

/-- The token stands for the value. -/
inductive StandsFor : Token → Value → Prop where
  | word {w : List Char} {v : Value} (h : wordValue? w = some v) : StandsFor (.word w) v
  | text (s : String) (multiline : Bool) : StandsFor (.text s multiline) (.text s)

/-- The characters after values. -/
def endsValue (c : Char) : Bool :=
  c == '\n' || c == ']' || c == ','

theorem spells_plainWord {w : List Char} {c : Char} (hne : w ≠ [])
    (hw : ∀ d ∈ w, isBareChar d = true) (hc : endsValue c = true) : Spells w (.word w) c := by
  refine spells_word hne (fun d hd => not_endsWord_of_isBareChar (hw d hd))
    (fun d hd => not_isControl_of_isBareChar (hw d hd)) ?_ ?_
  · simp only [endsValue, Bool.or_eq_true, beq_iff_eq] at hc
    rcases hc with (rfl | rfl) | rfl <;> rfl
  · rintro rfl
    cases hc

/-- An atom is written as one token that stands for it. -/
theorem spells_atom {v : Value} (hv : isAtom v = true) :
    ∃ t, StandsFor t v ∧ ∀ c, endsValue c = true → Spells (atom v).toList t c := by
  cases v with
  | bool b =>
    cases b with
    | true =>
      exact ⟨_, .word rfl, fun c hc => spells_plainWord (by decide) (List.all_eq_true.mp rfl) hc⟩
    | false =>
      exact ⟨_, .word rfl, fun c hc => spells_plainWord (by decide) (List.all_eq_true.mp rfl) hc⟩
  | int n =>
    refine ⟨_, .word (wordValue?_int hv), fun c hc => spells_plainWord ?_ ?_ hc⟩
    · show (toString n).toList ≠ []
      rw [Text.toList_toString_int]
      split <;> simp
    · intro d hd
      rcases mem_toString_int hd with rfl | hd
      · rfl
      · simp [isBareChar, Char.isAlphanum, hd]
  | text s =>
    obtain ⟨multiline, hs⟩ := spells_string s
    refine ⟨_, .text s multiline, fun c hc => hs c ?_ ?_⟩
    · rintro rfl
      cases hc
    · rintro rfl
      cases hc
  | _ => cases hv

/-! ## Scanner and reader together -/

/-- The text takes scanner and reader from one pair of states to another, whatever follows. -/
def Consumes (m : Mode) (s : State) (cs : List Char) (n : Mode) (s' : State) : Prop :=
  ∀ rest, (scan? m (cs ++ rest)).bind s.run? = (scan? n rest).bind s'.run?

theorem State.run?_append (s : State) (ts us : List Token) :
    s.run? (ts ++ us) = (s.run? ts).bind fun next => next.run? us := by
  induction ts generalizing s with
  | nil => rfl
  | cons t ts ih => simp [State.run?, ih, Option.bind_assoc]

namespace Consumes

variable {l m n : Mode} {s s' s'' : State} {cs ds : List Char} {c : Char} {t : Token}

theorem refl (m : Mode) (s : State) : Consumes m s [] m s := by
  intro rest
  rfl

theorem trans (h : Consumes l s cs m s') (h' : Consumes m s' ds n s'') :
    Consumes l s (cs ++ ds) n s'' := by
  intro rest
  rw [List.append_assoc, h, h']

theorem of_scans {ts : List Token} (h : Scans m cs ts n) (hrun : s.run? ts = some s') :
    Consumes m s cs n s' := by
  intro rest
  rw [h, Option.bind_map]
  congr 1
  funext us
  simp [State.run?_append, hrun]

theorem cons {ts : List Token} (hstep : m.step c = some (ts, n)) (hrun : s.run? ts = some s')
    (h : Consumes n s' cs l s'') : Consumes m s (c :: cs) l s'' :=
  (of_scans (.step hstep) hrun).trans h

/-- A token is taken up. -/
theorem of_spells (h : Spells cs t c) (hstep : s.step t = some s') {last : Char}
    (h' : Consumes (.between ' ') s' (c :: ds) n s'') :
    Consumes (.between last) s (cs ++ c :: ds) n s'' := by
  intro rest
  have hrun : (fun us => s.run? (t :: us)) = s'.run? := by
    funext us
    simp [State.run?, hstep]
  rw [List.append_assoc, List.cons_append, h, Option.bind_map]
  exact (congrArg _ hrun).trans (h' rest)

end Consumes

theorem State.step_of_standsFor {t : Token} {v : Value} (h : StandsFor t v) {s : State}
    (hs : s.expect = .value ∨ s.expect = .valueOrClose) : s.step t = s.complete v := by
  obtain ⟨e, stack, scope, root⟩ := s
  cases h with
  | word hw => rcases hs with rfl | rfl <;> simp [State.step, State.takeValue, hw]
  | text s multiline => rcases hs with rfl | rfl <;> rfl

/-! ## Assignment lines -/

/-- Whether a value stands on an assignment line. -/
def isInline : Value → Bool
  | .list vs => vs.all isAtom
  | v => isAtom v

section Assignment

variable {scope : List String} {root root' : Table}

theorem State.complete_line {v : Value}
    (h : Table.update? false (Table.assignPath? path v) scope root = some root') (e : Expect) :
    State.complete { expect := e, stack := [.line path], scope, root } v =
      some { expect := .lineEnd, scope, root := root' } := by
  simp [State.complete, h]

theorem consumes_lineEnd (last : Char) (scope : List String) (root : Table) :
    Consumes (.between last) { expect := .lineEnd, scope, root } ['\n'] (.between '\n')
      { scope, root } :=
  .of_scans (.step rfl) rfl

/-- The reader in a list of an assignment line, before an item or the end. -/
def inList (path scope : List String) (root : Table) (done : List Value) : State :=
  { expect := .valueOrClose, stack := [.list done, .line path], scope, root }

/-- The closing bracket completes the line. -/
theorem consumes_closeList (done : List Value) (last : Char)
    (h : Table.update? false (Table.assignPath? path (.list done.reverse)) scope root = some root')
    {e : Expect} (he : e = .valueOrClose ∨ e = .commaOrClose) :
    Consumes (.between last) { inList path scope root done with expect := e } [']', '\n']
      (.between '\n') { scope, root := root' } := by
  have hclose : (Mode.between last).step ']' =
      some ([.closeList (last == ']')], .between ']') := rfl
  refine .cons hclose ?_ (consumes_lineEnd ']' scope root')
  rcases he with rfl | rfl <;>
    simp [State.run?, State.step, State.close, inList, State.complete_line h]

theorem consumes_item (path scope : List String) (root : Table) {v : Value} (hv : isAtom v = true)
    (done : List Value) :
    Consumes (.between '\n') (inList path scope root done)
      ([' ', ' ', ' ', ' '] ++ ((atom v).toList ++ [',', '\n'])) (.between '\n')
      (inList path scope root (v :: done)) := by
  obtain ⟨t, ht, hspells⟩ := spells_atom hv
  have hindent : Consumes (.between '\n') (inList path scope root done) [' ', ' ', ' ', ' ']
      (.between ' ') (inList path scope root done) :=
    .of_scans (.collect rfl (.collect rfl (.collect rfl (.step rfl)))) rfl
  have hstep := State.step_of_standsFor ht (s := inList path scope root done) (.inr rfl)
  exact hindent.trans (.of_spells (hspells ',' rfl) hstep (.cons rfl rfl (.of_scans (.step rfl) rfl)))

/-- The items of a list are read. -/
theorem consumes_items (path scope : List String) (root : Table) {vs : List Value}
    (hvs : ∀ v ∈ vs, isAtom v = true) (done : List Value) :
    Consumes (.between '\n') (inList path scope root done)
      (vs.flatMap fun v => [' ', ' ', ' ', ' '] ++ ((atom v).toList ++ [',', '\n']))
      (.between '\n') (inList path scope root (vs.reverse ++ done)) := by
  induction vs generalizing done with
  | nil => exact .refl _ _
  | cons v vs ih =>
    have hitem := consumes_item path scope root (hvs v List.mem_cons_self) done
    have hitems := ih (fun w hw => hvs w (List.mem_cons_of_mem v hw)) (v :: done)
    simpa using hitem.trans hitems

theorem consumes_plainList {vs : List Value} (hvs : ∀ v ∈ vs, isAtom v = true)
    (h : Table.update? false (Table.assignPath? path (.list vs)) scope root = some root') :
    Consumes (.between ' ') { expect := .value, stack := [.line path], scope, root }
      ((plainList vs).toList ++ ['\n']) (.between '\n') { scope, root := root' } := by
  have hopen : (Mode.between ' ').step '[' = some ([.openList false], .between '[') := rfl
  unfold plainList
  split
  · exact .cons hopen rfl (consumes_closeList [] '[' h (.inl rfl))
  · next v =>
    obtain ⟨t, ht, hspells⟩ := spells_atom (hvs v List.mem_cons_self)
    have hstep := State.step_of_standsFor ht (s := inList path scope root []) (.inr rfl)
    have hclose := consumes_closeList [v] ' ' h (.inr rfl)
    have hline := Consumes.cons (s := { expect := .value, stack := [.line path], scope, root })
      hopen rfl (.of_spells (hspells ']' rfl) hstep hclose)
    simpa using hline
  · have hbreak : (Mode.between '[').step '\n' = some ([.newline], .between '\n') := rfl
    have hitems := consumes_items path scope root hvs []
    rw [← List.reverse_reverse vs] at h
    have hclose := consumes_closeList vs.reverse '\n' h (.inl rfl)
    rw [List.append_nil] at hitems
    have hline := Consumes.cons (s := { expect := .value, stack := [.line path], scope, root })
      hopen rfl (.cons hbreak rfl (hitems.trans hclose))
    simpa [List.flatMap_map] using hline

/-- An inline value is assigned. -/
theorem consumes_inlineValue {v : Value} (hv : isInline v = true)
    (h : Table.update? false (Table.assignPath? path v) scope root = some root') :
    Consumes (.between ' ') { expect := .value, stack := [.line path], scope, root }
      ((inlineValue v).toList ++ ['\n']) (.between '\n') { scope, root := root' } := by
  unfold inlineValue
  split
  · exact consumes_plainList (List.all_eq_true.mp hv) h
  · next hlist =>
    have hatom : isAtom v = true := by
      unfold isInline at hv
      split at hv
      · exact absurd rfl (hlist _)
      · exact hv
    obtain ⟨t, ht, hspells⟩ := spells_atom hatom
    have hstep := State.step_of_standsFor ht
      (s := { expect := .value, stack := [.line path], scope, root }) (.inl rfl)
    exact .of_spells (hspells '\n' rfl) (hstep.trans (State.complete_line h .value))
      (consumes_lineEnd ' ' scope root')

end Assignment

/-! ## Keys -/

theorem isBareKey_iff {s : String} :
    isBareKey s = true ↔ s.toList ≠ [] ∧ ∀ c ∈ s.toList, isBareChar c = true := by
  simp [isBareKey]

theorem ne_dot_of_isBareChar {c : Char} (hc : isBareChar c = true) : (c == '.') = false := by
  cases heq : c == '.' with
  | false => rfl
  | true =>
    rw [eq_of_beq heq] at hc
    cases hc

/-- The characters of the keys of a path, dots between them. -/
def dottedChars : List String → List Char
  | [] => []
  | [k] => k.toList
  | k :: ks => k.toList ++ '.' :: dottedChars ks

theorem toList_key {s : String} (hs : isBareKey s = true) : (key s).toList = s.toList := by
  have hkey : keyChars s.toList = s.toList := if_pos hs
  simp [key, hkey]

theorem toList_dottedPath (h : ∀ k ∈ path, isBareKey k = true) :
    (dottedPath path).toList = dottedChars path := by
  fun_induction dottedPath path with
  | case1 => rfl
  | case2 k => exact toList_key (h k List.mem_cons_self)
  | case3 k ks hks ih =>
    have hrest := ih fun d hd => h d (List.mem_cons_of_mem k hd)
    simp [dottedChars, toList_key (h k List.mem_cons_self), hrest]

theorem mem_dottedChars (h : ∀ k ∈ path, isBareKey k = true) {c : Char} (hc : c ∈ dottedChars path)
    : isBareChar c = true ∨ c = '.' := by
  fun_induction dottedChars path with
  | case1 => cases hc
  | case2 k => exact .inl ((isBareKey_iff.mp (h k List.mem_cons_self)).2 c hc)
  | case3 k ks hks ih =>
    rcases List.mem_append.mp hc with hc | hc
    · exact .inl ((isBareKey_iff.mp (h k List.mem_cons_self)).2 c hc)
    · rcases List.mem_cons.mp hc with rfl | hc
      · exact .inr rfl
      · exact ih (fun d hd => h d (List.mem_cons_of_mem k hd)) hc

theorem dottedChars_ne_nil (hne : path ≠ []) (h : ∀ k ∈ path, isBareKey k = true) :
    dottedChars path ≠ [] := by
  fun_induction dottedChars path with
  | case1 => exact absurd rfl hne
  | case2 k => exact (isBareKey_iff.mp (h k List.mem_cons_self)).1
  | case3 k ks hks ih => simp

theorem segments_dottedChars (hne : path ≠ []) (h : ∀ k ∈ path, isBareKey k = true) :
    Text.segments (· == '.') (dottedChars path) = path.map String.toList := by
  have hdot : ∀ k ∈ path, ∀ c ∈ k.toList, (c == '.') = false := fun k hk c hc =>
    ne_dot_of_isBareChar ((isBareKey_iff.mp (h k hk)).2 c hc)
  fun_induction dottedChars path with
  | case1 => exact absurd rfl hne
  | case2 k => exact Text.segments_of_none (hdot k List.mem_cons_self)
  | case3 k ks hks ih =>
    have hrest := ih (by rintro rfl; exact hks rfl) (fun d hd => h d (List.mem_cons_of_mem k hd))
      fun d hd => hdot d (List.mem_cons_of_mem k hd)
    rw [Text.segments_append_cons (hdot k List.mem_cons_self) rfl, hrest]
    rfl

theorem alternating?_names (hne : path ≠ []) :
    alternating? ((path.map fun k => [KeyPart.name k]).intersperse [.dot]).flatten = some path := by
  induction path with
  | nil => exact absurd rfl hne
  | cons k ks ih =>
    cases ks with
    | nil => rfl
    | cons l ls =>
      have hrest := ih (by simp)
      simp only [List.map_cons, List.intersperse_cons_cons, List.flatten_cons,
        List.singleton_append, alternating?] at hrest ⊢
      rw [hrest]
      rfl

/-- A dotted path is read. -/
theorem keyPath?_dottedChars (hne : path ≠ []) (h : ∀ k ∈ path, isBareKey k = true) :
    keyPath? [.word (dottedChars path)] = some path := by
  have hpieces : (path.map String.toList).map (fun s =>
      if s.isEmpty then [] else [KeyPart.name (String.ofList s)]) =
      path.map fun k => [KeyPart.name k] := by
    rw [List.map_map]
    refine List.map_congr_left fun k hk => ?_
    have hk := (isBareKey_iff.mp (h k hk)).1
    simp [hk]
  have hbare : (dottedChars path).all (fun c => isBareKeyChar c || c == '.') = true := by
    rw [List.all_eq_true]
    intro c hc
    rcases mem_dottedChars h hc with hc | rfl
    · rw [show isBareKeyChar c = true from hc]
      rfl
    · rfl
  simp only [keyPath?, List.all_cons, List.all_nil, hbare, Bool.and_self, ↓reduceIte, keyParts,
    List.flatMap_cons, List.flatMap_nil, List.append_nil, wordParts, segments_dottedChars hne h,
    hpieces, alternating?_names hne]

theorem keyPath?_tokenOfKey (s : String) :
    ∃ k, keyToken? (tokenOfKey s) = some k ∧ keyPath? [k] = some [s] := by
  unfold tokenOfKey
  split
  · next hs =>
    have hpath : ∀ k ∈ [s], isBareKey k = true := by simpa using hs
    exact ⟨_, rfl, keyPath?_dottedChars (List.cons_ne_nil s []) hpath⟩
  · exact ⟨_, rfl, rfl⟩

/-! ## Whole lines -/

/-- The text takes the reader from one line start to another, and the document with it. -/
def Runs (cs : List Char) (scope : List String) (root : Table) (scope' : List String)
    (root' : Table) : Prop :=
  Consumes (.between '\n') { scope, root } cs (.between '\n') { scope := scope', root := root' }

section Runs

variable {scope : List String} {root root' : Table}

theorem runs_blank (scope : List String) (root : Table) : Runs ['\n'] scope root scope root :=
  .of_scans (.step rfl) rfl

/-- A key begins an assignment. -/
theorem run?_key (s : String) (scope : List String) (root : Table) :
    State.run? { scope, root } [tokenOfKey s, .equals] =
      some { expect := .value, stack := [.line [s]], scope, root } := by
  obtain ⟨k, hk, hpath⟩ := keyPath?_tokenOfKey s
  have hstep : State.step { scope, root } (tokenOfKey s) =
      some { expect := .key [k], scope, root } := by
    unfold tokenOfKey at hk ⊢
    split at hk <;> simp_all [State.step]
  have hequals : State.step { expect := .key [k], scope, root } .equals =
      some { expect := .value, stack := [.line [s]], scope, root } := by
    simp [State.step, hpath]
  rw [State.run?, hstep, Option.bind_some, State.run?, hequals]
  rfl

/-- An assignment line puts its value into the table of the header above. -/
theorem runs_assignment {s : String} {v : Value} (hv : isInline v = true)
    (h : Table.update? false (Table.assign? s v) scope root = some root') :
    Runs (key s ++ " = " ++ inlineValue v ++ "\n").toList scope root scope root' := by
  have hassign : Table.update? false (Table.assignPath? [s] v) scope root = some root' := h
  have hvalue := consumes_inlineValue hv hassign
  have hline := (Consumes.of_scans (scans_key s '\n') (run?_key s scope root)).trans hvalue
  simpa [Runs] using hline

theorem spells_dottedChars (hne : path ≠ []) (hpath : ∀ k ∈ path, isBareKey k = true) :
    Spells (dottedChars path) (.word (dottedChars path)) ']' := by
  refine spells_word (dottedChars_ne_nil hne hpath) (fun c hc => ?_) (fun c hc => ?_) rfl (by decide)
  · rcases mem_dottedChars hpath hc with hc | rfl
    · exact not_endsWord_of_isBareChar hc
    · rfl
  · rcases mem_dottedChars hpath hc with hc | rfl
    · exact not_isControl_of_isBareChar hc
    · rfl

/-- A header line opens its table. -/
theorem runs_header (scope : List String) (hne : path ≠ []) (hpath : ∀ k ∈ path, isBareKey k = true)
    (h : Table.header? false path root = some root') :
    Runs ("[" ++ dottedPath path ++ "]\n").toList scope root path root' := by
  have hopen : (Mode.between '\n').step '[' = some ([.openList false], .between '[') := rfl
  have hclose : State.run? { expect := .header false [.word (dottedChars path)], scope, root }
      [.closeList false] = some { expect := .lineEnd, scope := path, root := root' } := by
    simp [State.run?, State.step, keyPath?_dottedChars hne hpath, State.takeHeader, h]
  have hend : Consumes (.between ' ')
      { expect := .header false [.word (dottedChars path)], scope, root } [']', '\n']
      (.between '\n') { scope := path, root := root' } :=
    .cons rfl hclose (consumes_lineEnd ']' path root')
  have hline := Consumes.cons (s := { scope, root }) hopen rfl
    (.of_spells (spells_dottedChars hne hpath) rfl hend)
  simpa [Runs, toList_dottedPath hpath] using hline

/-- A repeated header line opens a further table of its list. -/
theorem runs_repeatedHeader (scope : List String) (hne : path ≠ [])
    (hpath : ∀ k ∈ path, isBareKey k = true) (h : Table.header? true path root = some root') :
    Runs ("[[" ++ dottedPath path ++ "]]\n").toList scope root path root' := by
  have hopen : (Mode.between '\n').step '[' = some ([.openList false], .between '[') := rfl
  have hopen' : (Mode.between '[').step '[' = some ([.openList true], .between '[') := rfl
  have hclose : State.run? { expect := .header true [.word (dottedChars path)], scope, root }
      [.closeList false] = some { expect := .headerEnd path, scope, root } := by
    simp [State.run?, State.step, keyPath?_dottedChars hne hpath]
  have hclose' : State.run? { expect := .headerEnd path, scope, root } [.closeList true] =
      some { expect := .lineEnd, scope := path, root := root' } := by
    simp [State.run?, State.step, State.takeHeader, h]
  have hend : Consumes (.between ' ')
      { expect := .header true [.word (dottedChars path)], scope, root } [']', ']', '\n']
      (.between '\n') { scope := path, root := root' } :=
    .cons rfl hclose (.cons rfl hclose' (consumes_lineEnd ']' path root'))
  have hline := Consumes.cons (s := { scope, root }) hopen rfl
    (.cons hopen' rfl (.of_spells (spells_dottedChars hne hpath) rfl hend))
  simpa [Runs, toList_dottedPath hpath] using hline

end Runs

end Toml

end ScriptExport
