import Mathlib.Data.List.ReduceOption
import ScriptExport.Proofs.Analysis.ConstantNames

/-!
# The values of enumerators

What the export of an enum leaves behind, for any constants that were evaluated before. Each enumerator
gets its value after those before it (`Settles`): an initializer is evaluated where the earlier enumerators
hide the constants; without one, or if it cannot be evaluated, the enumerator follows the one before it.
`EnumExport` puts together the record, the diagnostics and the constants. One enumerator is one step of
the evaluation (`settles_valueOf`), and all of them by induction are `reads_evaluateEnum`.

The enumerator after the largest 64-bit integer repeats it, and nothing is reported about it
(`EnumExport.follows`).
-/

namespace ScriptExport.Analysis

/-- What names mean to an enumerator: the earlier enumerators of its enum, the latest one of a name, and
behind them the constants. -/
def environment (constants : OrderedMap String Int64) (own : List Enumerator) (name : String) :
    Option Int64 :=
  (meaning? (own.map ownDefinition) name).or (constants.get? name)

/-- The value that follows enumerators: the first one is 0, and nothing exceeds the largest 64-bit
integer. -/
def following (own : List Enumerator) : ℤ :=
  match own.getLast? with
  | none => 0
  | some e => min (e.value.toInt + 1) (2 ^ 63 - 1)

/-- The value of an enumerator after earlier ones of its enum, and the problem with it. -/
inductive Settles (h : Header) (constants : OrderedMap String Int64) (own : List Enumerator)
    (c : EnumConstant) : Int64 → Option Diagnostic → Prop where
  | implicit {v : Int64} (hinit : ∀ text ∈ c.init, Text.isBlankText text = true)
    (hv : v.toInt = following own) : Settles h constants own c v none
  | evaluated {text : String} {v : Int64} (hinit : c.init = some text)
    (htext : Text.isBlankText text = false)
    (heval : Constant.evaluate (environment constants own) (Text.trim text) = .ok v) :
    Settles h constants own c v none
  | failed {text : String} {err : Constant.EvalError} {v : Int64} (hinit : c.init = some text)
    (htext : Text.isBlankText text = false)
    (heval : Constant.evaluate (environment constants own) (Text.trim text) = .error err)
    (hv : v.toInt = following own) :
    Settles h constants own c v (some (enumEvaluation h c.name (Text.trim text) err v))

/-- The enumerators of an enum with their values and problems, in order. -/
structure Reads (h : Header) (constants : OrderedMap String Int64) (cs : List EnumConstant)
    (es : List Enumerator) (problems : List (Option Diagnostic)) : Prop where
  names : es.map (·.name) = cs.map (·.name)
  length : problems.length = cs.length
  settles : ∀ i c, cs[i]? = some c → ∃ v problem, es[i]? = some ⟨c.name, v⟩ ∧
    problems[i]? = some problem ∧ Settles h constants (es.take i) c v problem

/-- The problems with enumerators among diagnostics. -/
def evaluationProblems (ds : List Diagnostic) : List Diagnostic :=
  ds.filter (·.kind = .enumEvaluation)

/-- What the export of an enum in the state `s` leaves behind in the state `t`: its record, unless that
has no name or is there already; a diagnostic for each enumerator with a problem; and each enumerator
under the qualified name of the enum and `::`, and by its own name if the enum is unscoped. -/
structure EnumExport (ctx : Context) (h : Header) (e : Enumeration) (a : Directive) (s t : State)
    (es : List Enumerator) (problems : List (Option Diagnostic)) : Prop where
  reads : Reads h s.constants e.enumerators es problems
  records : t.records.toList = s.records.toList ++
    if s.admits (ctx.enumRecord h a es) then [ctx.enumRecord h a es] else []
  diagnostics : evaluationProblems t.diagnostics.toList =
    evaluationProblems s.diagnostics.toList ++ problems.reduceOption
  /-- Of several enumerators with a name the latest counts. -/
  constants : ∀ name, t.constants.get? name =
    (meaning? (es.map (enumeratorDefinition (ctx.scopes.qualifiedName h.name) e.isScoped)) name).or
      (s.constants.get? name)

/-! ## One enumerator -/

theorem initializer?_eq_none {init : Option String} :
    initializer? init = none ↔ ∀ text ∈ init, Text.isBlankText text = true := by
  cases init with
  | none => simp [initializer?]
  | some text => simp [initializer?, Text.trimmed?]

theorem initializer?_eq_some {init : Option String} {trimmed : String} :
    initializer? init = some trimmed ↔
      ∃ text, init = some text ∧ Text.isBlankText text = false ∧ Text.trim text = trimmed := by
  cases init with
  | none => simp [initializer?]
  | some text => simp [initializer?, Text.trimmed?]

/-- The value after the largest one is the largest one. -/
theorem toInt_successor (a : Int64) :
    (Constant.successor a).toInt = min (a.toInt + 1) (2 ^ 63 - 1) := by
  have hle := a.le_toInt
  have hlt := a.toInt_lt
  have hchecked := Constant.checked_toInt (a.toInt + 1)
  unfold Constant.fit? at hchecked
  unfold Constant.successor
  by_cases hmax : a.toInt + 1 < 2 ^ 63
  · rw [if_pos (by omega)] at hchecked
    obtain ⟨v, hv, hvalue⟩ := Option.map_eq_some_iff.mp hchecked
    rw [hv, Option.getD_some, hvalue]
    omega
  · rw [if_neg (by omega), Option.map_eq_none_iff] at hchecked
    rw [hchecked, Option.getD_none]
    omega

theorem toInt_nextAfter (own : List Enumerator) : (nextAfter own).toInt = following own := by
  unfold nextAfter following
  cases own.getLast? with
  | none => rfl
  | some e => exact toInt_successor e.value

namespace EnumProgress

variable {p : EnumProgress}

theorem Keeps.lookup (hp : p.Keeps) (constants : OrderedMap String Int64) :
    p.lookup constants = environment constants p.enumerators := by
  funext name
  unfold EnumProgress.lookup environment
  rw [hp.values]

/-- Every enumerator is settled, with a problem or without one. -/
theorem settles_valueOf (hp : p.Keeps) (h : Header) (constants : OrderedMap String Int64)
    (c : EnumConstant) : ∃ problem,
      Settles h constants p.enumerators c (p.valueOf h constants c).1 problem ∧
      (p.valueOf h constants c).2 = problem.toList := by
  have hnext : p.next.toInt = following p.enumerators := by
    rw [hp.next]
    exact toInt_nextAfter p.enumerators
  unfold EnumProgress.valueOf
  cases hinit : initializer? c.init with
  | none => exact ⟨none, .implicit (initializer?_eq_none.mp hinit) hnext, rfl⟩
  | some trimmed =>
    obtain ⟨text, htext, hblank, rfl⟩ := initializer?_eq_some.mp hinit
    dsimp only
    rw [hp.lookup constants]
    cases heval : Constant.evaluate (environment constants p.enumerators) (Text.trim text) with
    | ok v => exact ⟨none, .evaluated htext hblank heval, rfl⟩
    | error err => exact ⟨some _, .failed htext hblank heval hnext, rfl⟩

end EnumProgress

/-! ## All enumerators -/

theorem Reads.nil (h : Header) (constants : OrderedMap String Int64) : Reads h constants [] [] [] :=
  ⟨rfl, rfl, fun i c hc => by cases hc⟩

variable {constants : OrderedMap String Int64} {problems : List (Option Diagnostic)}

/-- One more enumerator. -/
theorem Reads.concat {h : Header} {cs : List EnumConstant} {es : List Enumerator}
    (hreads : Reads h constants cs es problems) {c : EnumConstant} {v : Int64}
    {problem : Option Diagnostic} (hc : Settles h constants es c v problem) :
    Reads h constants (cs ++ [c]) (es ++ [⟨c.name, v⟩]) (problems ++ [problem]) := by
  have hlength : es.length = cs.length := by simpa using congrArg List.length hreads.names
  refine ⟨by simp [hreads.names], by simp [hreads.length], ?_⟩
  intro i d hd
  by_cases hi : i < cs.length
  · rw [List.getElem?_append_left hi] at hd
    obtain ⟨w, problem', hw, hproblem, hsettles⟩ := hreads.settles i d hd
    refine ⟨w, problem', ?_, ?_, ?_⟩
    · rw [List.getElem?_append_left (by omega), hw]
    · rw [List.getElem?_append_left (by rw [hreads.length]; omega), hproblem]
    · rwa [List.take_append_of_le_length (by omega)]
  · have hlast : i = cs.length := by
      have := (List.getElem?_eq_some_iff.mp hd).1
      rw [List.length_append, List.length_singleton] at this
      omega
    subst hlast
    rw [List.getElem?_concat_length] at hd
    cases hd
    refine ⟨v, problem, ?_, ?_, ?_⟩
    · rw [← hlength, List.getElem?_concat_length]
    · rw [← hreads.length, List.getElem?_concat_length]
    · rwa [← hlength, List.take_left]

/-- All enumerators are settled in order, and the problems with them are reported in order. -/
theorem reads_evaluateEnum (h : Header) (constants : OrderedMap String Int64)
    (cs : List EnumConstant) :
    let p := evaluateEnum h constants cs
    p.Keeps ∧ ∃ problems, Reads h constants cs p.enumerators problems ∧
      p.diagnostics = problems.reduceOption := by
  -- from left to right: the earlier enumerators are the progress so far
  induction cs using List.reverseRecOn with
  | nil => exact ⟨⟨fun _ => rfl, rfl⟩, [], .nil h constants, rfl⟩
  | append_singleton cs c ih =>
    obtain ⟨hkeeps, problems, hreads, hdiagnostics⟩ := ih
    have hstep : evaluateEnum h constants (cs ++ [c]) =
        (evaluateEnum h constants cs).take h constants c := List.foldl_append
    generalize evaluateEnum h constants cs = p at hkeeps hreads hdiagnostics hstep
    obtain ⟨problem, hsettles, hproblem⟩ := p.settles_valueOf hkeeps h constants c
    rw [hstep]
    refine ⟨hkeeps.take h constants c, problems ++ [problem], hreads.concat hsettles, ?_⟩
    show p.diagnostics ++ (p.valueOf h constants c).2 = _
    rw [hdiagnostics, hproblem, List.reduceOption_append]
    cases problem <;> rfl

/-! ## The state -/

namespace State

theorem diagnostics_reportAll (ds : List Diagnostic) (s : State) :
    (s.reportAll ds).diagnostics.toList = s.diagnostics.toList ++ ds := by
  unfold State.reportAll
  induction ds generalizing s with
  | nil => exact (List.append_nil _).symm
  | cons d ds ih =>
    have hreport : (s.report d).diagnostics.toList = s.diagnostics.toList ++ [d] := by
      simp [State.report, State.log, State.note]
    rw [List.foldl_cons, ih, hreport, List.append_assoc]
    rfl

/-- A record is appended if it is admitted. -/
theorem records_emit (r : ExportRecord) (s : State) :
    (s.emit r).records.toList = s.records.toList ++ if s.admits r then [r] else [] := by
  unfold State.emit State.admits
  cases hvalid : r.isValid with
  | false => simp [State.report, State.log, State.note]
  | true =>
    by_cases hknown : r.identity ∈ s.identities
    · simp [hknown]
    · simp [hknown, State.push, State.log, State.note]

/-- A diagnostic is appended if the record is of no use. -/
theorem diagnostics_emit (r : ExportRecord) (s : State) :
    (s.emit r).diagnostics.toList =
      s.diagnostics.toList ++ if r.isValid then [] else [invalidRecord r] := by
  unfold State.emit
  cases hvalid : r.isValid with
  | false => simp [State.report, State.log, State.note]
  | true =>
    by_cases hknown : r.identity ∈ s.identities
    · simp [hknown]
    · simp [hknown, State.push, State.log, State.note]

end State

theorem evaluationProblems_append (ds es : List Diagnostic) :
    evaluationProblems (ds ++ es) = evaluationProblems ds ++ evaluationProblems es :=
  List.filter_append ..

/-- Problems with annotations are no problems with enumerators. -/
theorem evaluationProblems_issues (h : Header) (issues : List DirectiveIssue) :
    evaluationProblems (issueDiagnostics h issues) = [] := by
  refine List.filter_eq_nil_iff.mpr fun d hd => ?_
  obtain ⟨issue, -, rfl⟩ := List.mem_map.mp hd
  cases issue <;> simp [DirectiveIssue.kind]

theorem Settles.kind_of_mem {h : Header} {own : List Enumerator} {c : EnumConstant} {v : Int64}
    {problem : Option Diagnostic} (hc : Settles h constants own c v problem) :
    ∀ d ∈ problem, d.kind = .enumEvaluation := by
  intro d hd
  cases hc with
  | implicit => cases hd
  | evaluated => cases hd
  | failed => cases hd; rfl

theorem Reads.evaluationProblems_eq {h : Header} {cs : List EnumConstant} {es : List Enumerator}
    (hreads : Reads h constants cs es problems) :
    evaluationProblems problems.reduceOption = problems.reduceOption := by
  refine List.filter_eq_self.mpr fun d hd => ?_
  obtain ⟨i, hi⟩ := List.mem_iff_getElem?.mp (List.reduceOption_mem_iff.mp hd)
  have hlt : i < cs.length := by
    rw [← hreads.length]
    exact (List.getElem?_eq_some_iff.mp hi).1
  obtain ⟨v, problem, -, hproblem, hsettles⟩ := hreads.settles i _ (List.getElem?_eq_getElem hlt)
  cases hi.symm.trans hproblem
  simpa using hsettles.kind_of_mem d rfl

/-- An annotated enum is exported where it is visited. -/
theorem visit_enumeration (ctx : Context) (h : Header) (e : Enumeration) (s : State) {a : Directive}
    (ha : (Decl.enumeration h e).directive? ctx.options.marker = some a) :
    visit ctx (.enumeration h e) s = exportEnum ctx h e a (s.visit ctx (.enumeration h e)) := by
  have hdirective : (ctx.verdict (.enumeration h e)).directive = some a :=
    (directive_verdict_eq ctx _).trans ha
  unfold visit
  dsimp only
  rw [hdirective]
  rfl

/-- A declaration with a directive only has problems with its annotations reported before it is
exported. -/
theorem diagnostics_visit_of_directive {ctx : Context} {d : Decl} {a : Directive}
    (ha : d.directive? ctx.options.marker = some a) (s : State) :
    (s.visit ctx d).diagnostics.toList = s.diagnostics.toList ++
      issueDiagnostics d.header (parseAnnotations ctx.options.marker d.annotations).issues := by
  have hdirective := (directive_verdict_eq ctx d).trans ha
  unfold State.visit
  dsimp only
  split
  · next hverdict => rw [hverdict] at hdirective; cases hdirective
  · next hverdict => rw [hverdict] at hdirective; cases hdirective
  · next hverdict => rw [hverdict] at hdirective; cases hdirective
  · exact State.diagnostics_reportAll _ _

/-- The visit to an enum with a directive. -/
theorem exists_enumExport (ctx : Context) (h : Header) (e : Enumeration) (s : State) {a : Directive}
    (ha : (Decl.enumeration h e).directive? ctx.options.marker = some a) :
    ∃ es problems, EnumExport ctx h e a s (visit ctx (.enumeration h e) s) es problems := by
  obtain ⟨-, problems, hreads, hdiagnostics⟩ := reads_evaluateEnum h s.constants e.enumerators
  let es := (evaluateEnum h s.constants e.enumerators).enumerators
  let visited := s.visit ctx (.enumeration h e)
  let reported := visited.reportAll problems.reduceOption
  let bound : State := { reported with
    constants := bindEnumerators (ctx.scopes.qualifiedName h.name) e.isScoped es reported.constants }
  have hvisited : visited.constants = s.constants := State.constants_visit ctx _ s
  have hexport : visit ctx (.enumeration h e) s = bound.emit (ctx.enumRecord h a es) := by
    rw [visit_enumeration ctx h e s ha]
    unfold exportEnum
    dsimp only
    rw [hvisited, hdiagnostics]
    rfl
  have hsame : bound.SameResult s :=
    ((changes_visit s ctx _).trans ((changes_reportAll visited _).trans
      (.of_change (.constants _ _)))).sameResult
  refine ⟨es, problems, hreads, ?_, ?_, fun name => ?_⟩
  · have hadmits : bound.admits (ctx.enumRecord h a es) = s.admits (ctx.enumRecord h a es) := by
      unfold State.admits
      rw [hsame.identities]
    rw [hexport, State.records_emit, hadmits, hsame.records]
  · have hinvalid : evaluationProblems
        (if (ctx.enumRecord h a es).isValid then []
          else [State.invalidRecord (ctx.enumRecord h a es)]) = [] := by
      split <;> rfl
    rw [hexport, State.diagnostics_emit, evaluationProblems_append, hinvalid, List.append_nil]
    show evaluationProblems reported.diagnostics.toList = _
    rw [State.diagnostics_reportAll, diagnostics_visit_of_directive ha, evaluationProblems_append,
      evaluationProblems_append, evaluationProblems_issues, List.append_nil,
      hreads.evaluationProblems_eq]
  · rw [hexport, State.constants_emit]
    show (bindEnumerators _ _ es reported.constants).get? name = _
    rw [get?_bindEnumerators, State.constants_reportAll, hvisited]

/-- An enumerator without an initializer is the one before it plus one, unless that is the largest 64-bit
integer: then it repeats it. Nothing is reported about it. -/
theorem EnumExport.follows {ctx : Context} {h : Header} {e : Enumeration} {a : Directive}
    {s t : State} {es : List Enumerator} (hexport : EnumExport ctx h e a s t es problems) {i : ℕ}
    {x : Enumerator} {c : EnumConstant} (hx : es[i]? = some x) (hc : e.enumerators[i + 1]? = some c)
    (hinit : ∀ text ∈ c.init, Text.isBlankText text = true) :
    ∃ y, es[i + 1]? = some y ∧ y.name = c.name ∧ problems[i + 1]? = some none ∧
      y.value.toInt = min (x.value.toInt + 1) (2 ^ 63 - 1) := by
  have hlast : (es.take (i + 1)).getLast? = some x := by
    rw [List.getLast?_take]
    simp [hx]
  have hfollowing : following (es.take (i + 1)) = min (x.value.toInt + 1) (2 ^ 63 - 1) := by
    unfold following
    rw [hlast]
  obtain ⟨v, problem, hv, hproblem, hsettles⟩ := hexport.reads.settles _ c hc
  have hblank : ∀ {text : String}, c.init = some text → Text.isBlankText text ≠ false := by
    intro text htext hfalse
    rw [hinit text htext] at hfalse
    cases hfalse
  cases hsettles with
  | implicit _ hvalue => exact ⟨⟨c.name, v⟩, hv, rfl, hproblem, hvalue.trans hfollowing⟩
  | evaluated htext hfalse => exact absurd hfalse (hblank htext)
  | failed htext hfalse => exact absurd hfalse (hblank htext)

end ScriptExport.Analysis

namespace ScriptExport

open Analysis

/-- **Enums are reproduced.** In any state, whatever constants were evaluated before, the visit to an enum
with a directive makes the record of the enum with all of its enumerators in order. The value of each is the
value of its initializer where the earlier enumerators hide the constants; without an initializer, or
with one that cannot be evaluated, it follows the enumerator before it. Each enumerator that cannot be
evaluated is reported once and no other one is. Afterwards the enumerators are constants, behind the name of
the enum and, if it is unscoped, by their own names, the latest one of a name; all other constants are as
before. -/
theorem enum_reproduced (ctx : Context) (h : Header) (e : Enumeration) (a : Directive) (s : State)
    (ha : (Decl.enumeration h e).directive? ctx.options.marker = some a) :
    let t := visit ctx (.enumeration h e) s
    let keys := fun x : Enumerator =>
      (enumeratorDefinition (ctx.scopes.qualifiedName h.name) e.isScoped x).names
    ∃ es problems, Reads h s.constants e.enumerators es problems ∧
      t.records.toList = s.records.toList ++
        (if s.admits (ctx.enumRecord h a es) then [ctx.enumRecord h a es] else []) ∧
      evaluationProblems t.diagnostics.toList =
        evaluationProblems s.diagnostics.toList ++ problems.reduceOption ∧
      (∀ pre x post, es = pre ++ x :: post → ∀ key ∈ keys x, (∀ y ∈ post, key ∉ keys y) →
        t.constants.get? key = some x.value) ∧
      ∀ key, (∀ x ∈ es, key ∉ keys x) → t.constants.get? key = s.constants.get? key := by
  intro t keys
  obtain ⟨es, problems, hreads, hrecords, hdiagnostics, hconstants⟩ := exists_enumExport ctx h e s ha
  refine ⟨es, problems, hreads, hrecords, hdiagnostics, ?_, ?_⟩
  · intro pre x post hsplit key hkey hlater
    rw [hconstants, hsplit, List.map_append, List.map_cons, meaning?_of_latest hkey]
    · rfl
    · intro d hd
      obtain ⟨y, hy, rfl⟩ := List.mem_map.mp hd
      exact hlater y hy
  · intro key hother
    rw [hconstants, meaning?_eq_none]
    · rfl
    · intro d hd
      obtain ⟨x, hx, rfl⟩ := List.mem_map.mp hd
      exact hother x hx

/-- A header with a directive, and nothing around it. -/
def enumHeader : Header :=
  { name := "E", annotations := ["lua_export_enum"] }

/-- The context of an empty unit. -/
def enumContext : Context :=
  Context.ofUnit {} { filePath := "d.h", decls := [] }

/-- A constant, no initializer, a name without a meaning, and earlier enumerators by both names. -/
def assortedEnum : Enumeration :=
  { enumerators := [{ name := "A", init := some " N " }, { name := "B" },
      { name := "C", init := some "M" }, { name := "D", init := some "A | E::B" }] }

/-- A state that knows one constant. -/
def assortedState : State :=
  { constants := ({} : OrderedMap String Int64).insert "N" 7 }

/-- The third enumerator cannot be evaluated, and follows the second one. -/
theorem enum_reproduced_assorted :
    (Decl.enumeration enumHeader assortedEnum).directive? enumContext.options.marker =
      some ⟨.enumeration, {}⟩ ∧
    let t := visit enumContext (.enumeration enumHeader assortedEnum) assortedState
    let es : List Enumerator := [⟨"A", 7⟩, ⟨"B", 8⟩, ⟨"C", 9⟩, ⟨"D", 15⟩]
    t.records.toList = [enumContext.enumRecord enumHeader ⟨.enumeration, {}⟩ es] ∧
      (∃ problems, Reads enumHeader assortedState.constants assortedEnum.enumerators es problems ∧
        evaluationProblems t.diagnostics.toList = problems.reduceOption) ∧
      t.constants.get? "E::D" = some 15 ∧ t.constants.get? "D" = some 15 ∧
      t.constants.get? "N" = some 7 := by
  have ha : (Decl.enumeration enumHeader assortedEnum).directive? enumContext.options.marker =
      some ⟨.enumeration, {}⟩ := by rfl
  obtain ⟨es, problems, hreads, hrecords, hdiagnostics, hbound, hother⟩ :=
    enum_reproduced enumContext enumHeader assortedEnum ⟨.enumeration, {}⟩ assortedState ha
  have hmade : (visit enumContext (.enumeration enumHeader assortedEnum)
      assortedState).records.toList.map (·.enumerators) =
        [[⟨"A", 7⟩, ⟨"B", 8⟩, ⟨"C", 9⟩, ⟨"D", 15⟩]] := by rfl
  obtain rfl : es = [⟨"A", 7⟩, ⟨"B", 8⟩, ⟨"C", 9⟩, ⟨"D", 15⟩] := by
    rw [hrecords] at hmade
    split at hmade
    · exact (List.cons.inj hmade).1
    · cases hmade
  refine ⟨ha, hrecords, ⟨problems, hreads, hdiagnostics⟩, ?_, ?_, ?_⟩
  · exact hbound [⟨"A", 7⟩, ⟨"B", 8⟩, ⟨"C", 9⟩] _ [] rfl "E::D" (by decide) (List.forall_mem_nil _)
  · exact hbound [⟨"A", 7⟩, ⟨"B", 8⟩, ⟨"C", 9⟩] _ [] rfl "D" (by decide) (List.forall_mem_nil _)
  · exact hother "N" (by decide)

/-- **Implicit enumerators repeat the largest integer.** An enumerator without an initializer, after another
one, is never reported; its value is exactly that of the one before it plus one, unless that is the largest
64-bit integer, which it then repeats. -/
theorem implicit_enumerator_follows (ctx : Context) (h : Header) (e : Enumeration) (a : Directive)
    (s : State) (ha : (Decl.enumeration h e).directive? ctx.options.marker = some a) :
    ∃ es problems, EnumExport ctx h e a s (visit ctx (.enumeration h e) s) es problems ∧
      ∀ i x c, es[i]? = some x → e.enumerators[i + 1]? = some c →
        (∀ text ∈ c.init, Text.isBlankText text = true) →
        ∃ y, es[i + 1]? = some y ∧ y.name = c.name ∧ problems[i + 1]? = some none ∧
          (x.value.toInt ≠ 2 ^ 63 - 1 → y.value.toInt = x.value.toInt + 1) ∧
          (x.value.toInt = 2 ^ 63 - 1 → y.value = x.value) := by
  obtain ⟨es, problems, hexport⟩ := exists_enumExport ctx h e s ha
  refine ⟨es, problems, hexport, fun i x c hx hc hinit => ?_⟩
  obtain ⟨y, hy, hname, hproblem, hvalue⟩ := hexport.follows hx hc hinit
  have hlt := x.value.toInt_lt
  refine ⟨y, hy, hname, hproblem, fun hmax => ?_, fun hmax => Int64.toInt_inj.mp ?_⟩
  · omega
  · omega

/-- The largest integer and an enumerator after it. -/
def largestEnum : Enumeration :=
  { enumerators := [{ name := "A", init := some "9223372036854775807" }, { name := "B" }] }

/-- Both enumerators have the same value, and no problem. -/
theorem implicit_enumerator_follows_largest :
    (Decl.enumeration enumHeader largestEnum).directive? enumContext.options.marker =
      some ⟨.enumeration, {}⟩ ∧
    let es : List Enumerator := [⟨"A", Int64.maxValue⟩, ⟨"B", Int64.maxValue⟩]
    ∃ problems, EnumExport enumContext enumHeader largestEnum ⟨.enumeration, {}⟩ {}
        (visit enumContext (.enumeration enumHeader largestEnum) {}) es problems ∧
      problems[1]? = some none := by
  have ha : (Decl.enumeration enumHeader largestEnum).directive? enumContext.options.marker =
      some ⟨.enumeration, {}⟩ := by rfl
  obtain ⟨es, problems, hexport, hfollows⟩ :=
    implicit_enumerator_follows enumContext enumHeader largestEnum ⟨.enumeration, {}⟩ {} ha
  have hmade : (visit enumContext (.enumeration enumHeader largestEnum)
      {}).records.toList.map (·.enumerators) =
        [[⟨"A", Int64.maxValue⟩, ⟨"B", Int64.maxValue⟩]] := by rfl
  obtain rfl : es = [⟨"A", Int64.maxValue⟩, ⟨"B", Int64.maxValue⟩] := by
    rw [hexport.records] at hmade
    split at hmade
    · exact (List.cons.inj hmade).1
    · cases hmade
  obtain ⟨y, -, -, hproblem, -⟩ :=
    hfollows 0 ⟨"A", Int64.maxValue⟩ { name := "B" } rfl rfl (fun text htext => by cases htext)
  exact ⟨ha, problems, hexport, hproblem⟩

end ScriptExport
