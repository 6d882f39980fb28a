import NameInference.Command.Diagnosis
import NameInference.Command.Options
import NameInference.Inference.Query

/-!
# Runs of the program

A run reads its arguments, loads one source into a new session and answers one query about it: the
values of an expression, the definitions of a name, signatures, or the issues of all calls. It says
what it writes to the two outputs and to the log, and its status: zero if there is an answer, one if
there is none or something is at fault, two if the program was not used as it should be.
-/

namespace NameInference

/-- What a run leaves behind. -/
structure Outcome where
  status : Nat
  out : Text := []
  err : Text := []
  files : Files := {}

/-- What is said about a query, and the status. A report is final if the run ended without an
answer. -/
structure Report where
  out : Text := []
  err : Text := []
  status : Nat
  isFinal : Bool := false

namespace Report

/-- One line for each item; without any, there is no answer. -/
def ofLines (lines : List Text) : Report :=
  { out := lines.flatMap (· ++ "\n"), status := if lines.isEmpty then 1 else 0 }

/-- The report of a run that cannot go on; what it wrote before stays. -/
def ofFailure (failure : Failure) (out : Text := []) : Report :=
  { out, err := noticeLine failure.message, status := 2, isFinal := true }

end Report

namespace Session

/-- The identifier at a position in a module, empty if there is none. -/
def identifierAt (s : Session) (module : ValueId) (position : Position) : Text :=
  match (s.treeOf? module).bind (·.root.deepestAt position) with
  | none => []
  | some p =>
    match p.node.form with
    | .name id => id
    | .attr _ id _ => id
    | _ => []

/-- Where a name is, as `FILE:LINE:COL`. -/
def location (s : Session) (name : FoundName) : Text :=
  let known := do
    let module ← s.values.module? (s.values.root (← name.parent?))
    let position ← name.position?
    return module.path ++ ":" ++ Text.ofNat position.line ++ ":"
      ++ Text.ofNat position.col
  known.getD "(builtin)"

/-- The counts of a session with those of its memo and of its values. -/
def summary (s : Session) : Tally :=
  let counts : List (String × Nat) :=
    [("cache.hits", s.memo.hits), ("cache.misses", s.memo.misses), ("guard.trips", s.memo.trips)]
  let tally := counts.foldl (fun tally (name, n) =>
    if n == 0 then tally else tally.setCounter (Text.ofString name) n.toUInt64) s.tally
  tally.setGauge "contexts" s.values.size.toUInt64

/-- Runs a step that gives a report; a failure is reported too. -/
def report (step : SessionM Report) (s : Session) : Report × Session :=
  match step s with
  | (.ok report, s) => (report, s)
  | (.error failure, s) => (.ofFailure failure, s)

/-- The issues of a module. -/
def reportIssues (module : ValueId) (colored : Bool) : SessionM Report := do
  let issues ← (Infer.collectIssues module).start
  let files := (← get).files
  let shown := issues.map fun i =>
    { message := i.diagnosis, file := i.file,
      line := i.position.line, col := i.position.col : Diagnosis }
  return { err := shown.flatMap (·.render files colored),
           status := if issues.isEmpty then 0 else 1 }

/-- The definitions that an identifier at a position refers to. -/
def reportDefinitions (module : ValueId) (id : Text) (position : Position) : SessionM Report := do
  if id.isEmpty then return .ofLines []
  let names ← Infer.start do Infer.gotoNames (← Infer.contextAt module position) id position
  let s ← get
  return .ofLines (names.map fun name => name.text ++ " " ++ s.location name)

/-- The signatures of values, in the order of the values. -/
def reportSignatures (lines : List Text) : List ValueId → Session → Report × Session
  | [], s => (.ofLines lines, s)
  | id :: rest, s =>
    match (Infer.signatures engineDepth id).start s with
    | (.ok signatures, s) => reportSignatures (lines ++ signatures.map (·.text)) rest s
    | (.error failure, s) => (.ofFailure failure (Report.ofLines lines).out, s)

/-- The values of a name, or of the expression, at a position. -/
def valuesAt (module : ValueId) (name : Text) (position : Position) : SessionM ValueSet :=
  if name.isEmpty then (Infer.inferExpressionAt module position).start
  else (Infer.inferAt module name position).start

/-- Answers the query about a position. -/
def reportQuery (module : ValueId) (mode : QueryMode) (name : Text) (position : Position)
    (s : Session) :
    Report × Session :=
  if mode == .goto then
    let id := if name.isEmpty then s.identifierAt module position else name
    s.report (reportDefinitions module id position)
  else
    match valuesAt module name position s with
    | (.error failure, s) => (.ofFailure failure, s)
    | (.ok values, s) =>
      if mode == .signatures then reportSignatures [] values.ids s
      else (.ofLines (values.ids.map s.values.describe), s)

end Session

namespace Options

/-- The path of the log. -/
def logPath (options : Options) : Text :=
  (if options.logFolder.isEmpty then Text.ofString "." else options.logFolder) ++
    Text.ofString "/pyinfer.infer.log"

/-- Starts an empty log, if one is asked for: what is said about it, the files with it, and whether
there is one. -/
def openLog (options : Options) (files : Files) : Text × Files × Bool :=
  let folder := if options.logFolder.isEmpty then Text.ofString "." else options.logFolder
  if !options.logged then ([], files, false)
  else match files.makeFolder folder with
    | .error fault =>
      (noticeLine ("failed to create log directory '" ++ folder ++ "': " ++ fault.message),
        files, false)
    | .ok files => match files.write? options.logPath [] with
      | none => (noticeLine ("cannot write '" ++ options.logPath ++ "'"), files, false)
      | some files => ([], files, true)

/-- Whether faults are shown in color. -/
def isColored (options : Options) (environment : Environment) (isTerminal : Bool) : Bool :=
  match options.color with
  | .always => true
  | .never => false
  | .auto => environment.color?.getD isTerminal

/-- Loads the input and answers the query. -/
def analyse (options : Options) (input : Text) (colored : Bool) (s : Session) : Report × Session :=
  match Session.loadModule input s with
  | (.error (.malformed e), s) =>
    let d : Diagnosis :=
      { message := e.message, file := e.file, line := e.position.line, col := e.position.col }
    ({ err := d.render s.files colored, status := 1, isFinal := true }, s)
  | (.error failure, s) => ({ err := noticeLine failure.message, status := 1, isFinal := true }, s)
  | (.ok module, s) =>
    match options.position with
    | some position =>
      if options.mode == .issues then s.report (Session.reportIssues module colored)
      else s.reportQuery module options.mode options.name position
    | none => s.report (Session.reportIssues module colored)

/-- The counts that are asked for. -/
def metricsText (options : Options) (tally : Tally) : Text :=
  (if options.metrics then tally.summaryText else [])
    ++ (if options.metricsJson then tally.summaryJson ++ "\n" else [])

end Options

/-- Runs the program on arguments, in an environment and over files. -/
def run (arguments : List Text) (environment : Environment) (files : Files) (isTerminal : Bool) :
    Outcome :=
  match Options.ofArguments arguments with
  | (_, some fault) =>
    { status := 2
      err := noticeLine fault.message ++ noticeLine "argument parse error" ++ Options.usage
      files }
  | (options, none) =>
    if options.showHelp then { status := 0, out := Options.usage, files }
    else match options.inputs, options.settings environment with
      | [input], .ok settings =>
        let colored := options.isColored environment isTerminal
        let (notice, files, traced) := options.openLog files
        let (report, s) := options.analyse input colored (Session.new files settings traced)
        let metrics := if report.isFinal then [] else options.metricsText s.summary
        { status := report.status
          out := report.out ++ metrics
          err := notice ++ report.err
          files :=
            if traced then (files.write? options.logPath s.trace.text).getD files
            else files }
      | [_], .error e => { status := 2, err := noticeLine e.message, files }
      | _, _ => { status := 2, err := noticeLine "exactly one input file is required", files }

end NameInference
