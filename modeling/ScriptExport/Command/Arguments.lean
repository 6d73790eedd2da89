import ScriptExport.Text.Segment

/-!
# Command line arguments

What the arguments of the program ask for. Each level of the command line (the program, a command, an
action of a command) has its options; the words of a level are its operands, or the first of them names
the next level. Options may stand anywhere on their level, `--` ends them, and a text that starts with
`-` is never the value of an option. An option that is no counter may be given once on a level.
-/

namespace ScriptExport

/-- What an option takes. -/
inductive OptionKind where
  | flag
  /-- A flag that may be repeated. -/
  | counter
  | value
  /-- A value that cannot be empty. -/
  | path
  | help
  | version
deriving DecidableEq, Repr

/-- An option of a level. -/
structure OptionSpec where
  long : String
  short : Option Char := none
  kind : OptionKind := .flag
deriving DecidableEq, Repr

/-- Why the arguments lead to no command. -/
inductive Stop where
  /-- They are wrong. -/
  | usage
  | help
  | version
deriving DecidableEq, Repr

/-- What has been read on one level. -/
structure LevelArgs where
  /-- The flags in the order in which they were given. -/
  flags : List String := []
  values : List (String × String) := []
  words : List String := []
deriving DecidableEq, Repr

/-- What a level of the command line knows. -/
structure LevelSpec where
  options : List OptionSpec
  /-- The first word names the next level. -/
  hasCommands : Bool := false
  /-- Words cannot be empty. -/
  wordsArePaths : Bool := false
deriving Repr

namespace LevelArgs

/-- Whether a flag was given. -/
def has (args : LevelArgs) (flag : String) : Bool :=
  args.flags.contains flag

/-- The value of an option. -/
def value? (args : LevelArgs) (name : String) : Option String :=
  (args.values.find? fun v => v.1 == name).map (·.2)

/-- Take an option that has no value. -/
def takeFlag (args : LevelArgs) (o : OptionSpec) : Except Stop LevelArgs :=
  match o.kind with
  | .help => .error .help
  | .version => .error .version
  | .counter => .ok { args with flags := args.flags ++ [o.long] }
  | .flag =>
    if args.has o.long then .error .usage else .ok { args with flags := args.flags ++ [o.long] }
  | .value => .error .usage
  | .path => .error .usage

/-- Take an option with its value. -/
def takeValue (args : LevelArgs) (o : OptionSpec) (value : String) : Except Stop LevelArgs :=
  if (args.value? o.long).isSome || (o.kind = .path && value.isEmpty) then .error .usage
  else .ok { args with values := args.values ++ [(o.long, value)] }

/-- Take a word. -/
def takeWord (args : LevelArgs) (spec : LevelSpec) (word : String) : Except Stop LevelArgs :=
  if spec.wordsArePaths && word.isEmpty then .error .usage
  else .ok { args with words := args.words ++ [word] }

end LevelArgs

/-- Whether the option needs a value. -/
def OptionSpec.takesValue (o : OptionSpec) : Bool :=
  o.kind == .value || o.kind == .path

/-- Take short options that are written together. The last of them may wait for its value. -/
def takeCluster (spec : LevelSpec) : List Char → LevelArgs → Except Stop (LevelArgs × Option OptionSpec)
  | [], args => .ok (args, none)
  | c :: cs, args =>
    match spec.options.find? fun o => o.short == some c with
    | none => .error .usage
    | some o =>
      if o.takesValue then
        match cs with
        | [] => .ok (args, some o)
        | '=' :: value => (args.takeValue o (String.ofList value)).map (·, none)
        | value => (args.takeValue o (String.ofList value)).map (·, none)
      else
        match args.takeFlag o with
        | .error stop => .error stop
        | .ok args => takeCluster spec cs args

/-- Take a long option, without its dashes. It may wait for its value. -/
def takeLong (spec : LevelSpec) (body : List Char) (args : LevelArgs) :
    Except Stop (LevelArgs × Option OptionSpec) :=
  let (name, value?) := match Text.cutAt '=' body with
    | some (name, value) => (name, some (String.ofList value))
    | none => (body, none)
  match spec.options.find? fun o => o.long == String.ofList name with
  | none => .error .usage
  | some o =>
    match o.takesValue, value? with
    | true, some value => (args.takeValue o value).map (·, none)
    | true, none => .ok (args, some o)
    | false, some _ => .error .usage
    | false, none => (args.takeFlag o).map (·, none)

/-- Where the reader of a level stands. -/
inductive Reading where
  | free
  /-- The next argument is the value of an option. -/
  | awaiting (o : OptionSpec)
  /-- After `--`, where everything is a word. -/
  | wordsOnly

/-- Read the arguments of a level, up to the name of the next level and the arguments after it. -/
def readLevel (spec : LevelSpec) (reading : Reading) (args : LevelArgs) :
    List String → Except Stop (LevelArgs × Option (String × List String))
  | [] =>
    match reading with
    | .awaiting _ => .error .usage
    | _ => .ok (args, none)
  | arg :: rest =>
    match reading, arg.toList with
    | .wordsOnly, _ =>
      if spec.hasCommands then .error .usage
      else match args.takeWord spec arg with
        | .error stop => .error stop
        | .ok args => readLevel spec .wordsOnly args rest
    | .awaiting _, '-' :: _ :: _ => .error .usage
    | .awaiting o, _ =>
      match args.takeValue o arg with
      | .error stop => .error stop
      | .ok args => readLevel spec .free args rest
    | .free, ['-', '-'] => readLevel spec .wordsOnly args rest
    | .free, '-' :: '-' :: body =>
      match takeLong spec body args with
      | .error stop => .error stop
      | .ok (args, none) => readLevel spec .free args rest
      | .ok (args, some o) => readLevel spec (.awaiting o) args rest
    | .free, '-' :: c :: cs =>
      match takeCluster spec (c :: cs) args with
      | .error stop => .error stop
      | .ok (args, none) => readLevel spec .free args rest
      | .ok (args, some o) => readLevel spec (.awaiting o) args rest
    | .free, _ =>
      if spec.hasCommands then .ok (args, some (arg, rest))
      else match args.takeWord spec arg with
        | .error stop => .error stop
        | .ok args => readLevel spec .free args rest

/-! ## The program's own command line -/

/-- What an analysis of inputs and a written manifest need. -/
structure AnalyzeArgs where
  inputs : List String
  out : String := "luaexport-manifest.json"
  merge : Bool := false
  strict : Bool := false
  diagnostics : Bool := false
  marker : Option String := none
deriving DecidableEq, Repr

/-- What a check of inputs needs. -/
structure CheckArgs where
  inputs : List String
  json : Bool := false
  strict : Bool := false
deriving DecidableEq, Repr

/-- What is done with the settings. -/
inductive SettingsAction where
  | showAll
  | get (key : String)
  | set (key value : String)
  | path
deriving DecidableEq, Repr

/-- What the program is asked to do. -/
inductive Command where
  | analyze (args : AnalyzeArgs)
  | check (args : CheckArgs)
  | settings (action : SettingsAction)
deriving DecidableEq, Repr

/-- How much the program says. -/
structure Talk where
  quiet : Bool := false
  verbose : Nat := 0
deriving DecidableEq, Repr

/-- The verbosity; being quiet wins. -/
def Talk.verbosity (t : Talk) : Nat :=
  if t.quiet then 0 else t.verbose

/-- The options that every level has. -/
def commonOptions : List OptionSpec :=
  [{ long := "quiet", short := some 'q' }, { long := "verbose", short := some 'v', kind := .counter },
    { long := "help", short := some 'h', kind := .help }]

/-- The level of the program. -/
def programLevel : LevelSpec :=
  { options := commonOptions ++ [{ long := "version", short := some 'V', kind := .version }]
    hasCommands := true }

/-- The level of `analyze`. -/
def analyzeLevel : LevelSpec :=
  { options := commonOptions ++
      [{ long := "out", short := some 'o', kind := .path }, { long := "merge" }, { long := "strict" },
        { long := "diagnostics" }, { long := "prefix", kind := .value }]
    wordsArePaths := true }

/-- The level of `check`. -/
def checkLevel : LevelSpec :=
  { options := commonOptions ++ [{ long := "json" }, { long := "strict" }], wordsArePaths := true }

/-- The level of `config`. -/
def settingsLevel : LevelSpec :=
  { options := commonOptions, hasCommands := true }

/-- The level of an action of `config`. -/
def actionLevel : LevelSpec :=
  { options := commonOptions }

/-- What a level adds to how much the program says; for each option the innermost level that gives it
counts. -/
def Talk.refine (t : Talk) (args : LevelArgs) : Talk :=
  let count := args.flags.count "verbose"
  { quiet := t.quiet || args.has "quiet", verbose := if count = 0 then t.verbose else count }

/-- Read `analyze` and its arguments. -/
def readAnalyze (t : Talk) (rest : List String) : Except Stop (Talk × Command) := do
  let (args, _) ← readLevel analyzeLevel .free {} rest
  if args.words.isEmpty then .error .usage
  else
    let command : AnalyzeArgs :=
      { inputs := args.words
        out := (args.value? "out").getD "luaexport-manifest.json"
        merge := args.has "merge"
        strict := args.has "strict"
        diagnostics := args.has "diagnostics"
        marker := args.value? "prefix" }
    return (t.refine args, .analyze command)

/-- Read `check` and its arguments. -/
def readCheck (t : Talk) (rest : List String) : Except Stop (Talk × Command) := do
  let (args, _) ← readLevel checkLevel .free {} rest
  if args.words.isEmpty then .error .usage
  else
    let command : CheckArgs :=
      { inputs := args.words, json := args.has "json", strict := args.has "strict" }
    return (t.refine args, .check command)

/-- The action with the given name and operands. -/
def SettingsAction.ofWords? : String → List String → Option SettingsAction
  | "show", [] => some .showAll
  | "get", [key] => some (.get key)
  | "set", [key, value] => some (.set key value)
  | "path", [] => some .path
  | _, _ => none

/-- The names of the actions. -/
def SettingsAction.names : List String := ["show", "get", "set", "path"]

/-- The answer to a request for help on the named levels, of which there may be at most one. -/
def helpOn (names : List String) : List String → Except Stop (Talk × Command)
  | [] => .error .help
  | name :: _ => if names.contains name then .error .help else .error .usage

/-- Read `config`, its action and their arguments. -/
def readSettings (t : Talk) (rest : List String) : Except Stop (Talk × Command) := do
  let (outer, next?) ← readLevel settingsLevel .free {} rest
  match next? with
  | none => .error .usage
  | some (name, rest) =>
    if name == "help" then helpOn SettingsAction.names rest
    else if !SettingsAction.names.contains name then .error .usage
    else do
      let (inner, _) ← readLevel actionLevel .free {} rest
      match SettingsAction.ofWords? name inner.words with
      | none => .error .usage
      | some action => return ((t.refine outer).refine inner, .settings action)

/-- Read the arguments of the program. -/
def readArguments (arguments : List String) : Except Stop (Talk × Command) := do
  let (args, next?) ← readLevel programLevel .free {} arguments
  let talk := Talk.refine {} args
  match next? with
  | none => .error .usage
  | some ("analyze", rest) => readAnalyze talk rest
  | some ("check", rest) => readCheck talk rest
  | some ("config", rest) => readSettings talk rest
  | some ("help", rest) => helpOn ["analyze", "check", "config"] rest
  | some _ => .error .usage

end ScriptExport
