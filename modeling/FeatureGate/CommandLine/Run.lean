import FeatureGate.CommandLine.Options
import FeatureGate.FeatureGraph
import FeatureGate.Grammar.Items
import FeatureGate.Lint
import FeatureGate.Plan

/-!
What the commands do. A command reads its files and leaves a report: what is
printed, what is logged, and perhaps an error at the end. Watching goes on after
the report of its start.
-/

namespace FeatureGate

structure Report where
  output : Bytes := []
  log : List LogEntry := []
  error : Option Bytes := none
deriving Repr

namespace Report

/-- A report of nothing but an error. -/
def failure (message : Bytes) : Report := { error := some message }

def append (a b : Report) : Report :=
  { output := a.output ++ b.output, log := a.log ++ b.log,
    error := a.error.or b.error }

end Report

/-- The config file that is watched, and what is planned again whenever it
changes. -/
structure WatchSession where
  settings : Settings
  items : List Item
  watcher : Watcher
deriving Repr

namespace WatchSession

/-- The plan under the options of a snapshot, headed by its version. -/
def block (items : List Item) (version : UInt64)
    (o : CompileOptions) : Report :=
  let plan := Plan.make items o
  { output := utf8 "# options v" ++ decimal version.toNat ++
      utf8 "\n" ++ plan.text
    log := plan.log }

/-- The report of a reaction. After a reload the flags go over the options of
the file again. -/
def reportOf (s : WatchSession) (reaction : Reaction) : Option Report :=
  let log := s.watcher.log reaction
  match reaction with
  | .ignored => none
  | .failed _ => some { log := log }
  | .reloaded snapshot =>
      some (Report.append { log := log }
        (block s.items snapshot.version (s.settings.applyTo snapshot.options)))

/-- React to an event; an event that means nothing leaves no report. -/
def react (s : WatchSession) (d : Decoders) (view : FileView)
    (event : FileEvent) :
    WatchSession × Option Report :=
  let (watcher, reaction) := s.watcher.react d view event
  ({ s with watcher := watcher }, s.reportOf reaction)

/-- Begin to watch: plan once, and go on if the folder can be watched. -/
def start (s : Settings) (view : FileView) (items : List Item)
    (o : CompileOptions) : Report × Option WatchSession :=
  let store := Store.new o
  let watcher := Watcher.new view s.config store
  let first := block items store.load.version store.load.options
  match view.watch watcher.folder with
  | .error fault =>
      (first.append
        (.failure (utf8 "failed to watch " ++ watcher.folder ++ utf8 ": " ++
          fault.reason)), none)
  | .ok () =>
      (first.append { log := watcher.startLog }, some ⟨s, items, watcher⟩)

end WatchSession

namespace Command

/-- Work with the options that the flags give. -/
def withOptions (d : Decoders) (view : FileView) (s : Settings)
    (work : CompileOptions → Report × Option WatchSession) :
    Report × Option WatchSession :=
  match s.options d view with
  | .ok o => work o
  | .error fault => (.failure (s.faultMessage fault), none)

/-- Work with the items of a file. -/
def withItems (view : FileView) (path : Bytes)
    (work : List Item → Report × Option WatchSession) :
    Report × Option WatchSession :=
  match loadItems view path with
  | .ok items => work items
  | .error fault => (.failure (fault.message path), none)

def checkReport (items : List Item) (o : CompileOptions) : Report :=
  let plan := Plan.make items o
  { output := plan.text
    log := plan.log ++ [{ level := .debug, message := "Options in effect"
                          fields := [("test", .bool o.test),
                            ("features", .texts o.features.names)] }] }

def featuresReport (items : List Item) (o : CompileOptions) : Report :=
  { output := (FeatureGraph.build items o.features).text }

/-- Show the conditions that can never hold or are malformed. -/
def lintReport (path : Bytes) (mode : Lint.Mode) (items : List Item) : Report :=
  let issues := Lint.lintItems path mode items
  { output := issues.flatMap fun issue => issue.text ++ utf8 "\n"
    error :=
      if Lint.hasErrors issues then
        some (decimal issues.length ++ utf8 " lint issue(s) found")
      else none }

def testsReport (items : List Item) : Report :=
  let plan := Plan.make items (.forTesting [])
  { output := plan.testsText, log := plan.log }

def usage : Bytes :=
  utf8 "Usage:\n  dreamc COMMAND FILE\n\nCommands:\n  check\n  features\n  lint\n  tests\n  watch\n"

def run (d : Decoders) (view : FileView) (s : Settings) (path : Bytes) :
    Command → Report × Option WatchSession
  | .check =>
      withOptions d view s fun o => withItems view path fun items =>
        (checkReport items o, none)
  | .features =>
      withOptions d view s fun o => withItems view path fun items =>
        (featuresReport items o, none)
  | .lint =>
      match Lint.Mode.parse? s.malformed with
      | none => (.failure (Lint.Mode.unknownMessage s.malformed), none)
      | some mode =>
          withItems view path fun items => (lintReport path mode items, none)
  | .tests => withItems view path fun items => (testsReport items, none)
  | .watch =>
      if s.config.isEmpty then
        (.failure (utf8 "--config is required for watch"), none)
      else
        withOptions d view s fun o => withItems view path fun items =>
          WatchSession.start s view items o
  | .help | .completion => ({ output := usage }, none)

/-- Whether a command only tells about the program. -/
def isInformal : Command → Bool
  | .help | .completion => true
  | _ => false

end Command

/-- What the program does with its arguments. -/
structure Run where
  verbose : Bool := false
  report : Report
  /-- What is said after the first mention of the error. -/
  hint : Bytes := []
  session : Option WatchSession := none
deriving Repr

namespace Run

def command (d : Decoders) (view : FileView) (command : Command)
    (args : List Bytes) : Run :=
  match Flag.parse command.flags args {} with
  | .error error => { report := .failure error.message }
  | .ok (s, files) =>
      if s.help || command.isInformal then
        { report := { output := Command.usage } }
      else
        match files with
        | [path] =>
            let (report, session) := command.run d view s path
            { verbose := s.verbose, report := report, session := session }
        | _ =>
            { report := .failure
                (utf8 "accepts 1 arg(s), received " ++ decimal files.length) }

def ofArgs (d : Decoders) (view : FileView) (args : List Bytes) : Run :=
  match Call.ofArgs args with
  | .known c args => command d view c args
  | .nothing args =>
      match Flag.parse Command.commonFlags args {} with
      | .error error => { report := .failure error.message }
      | .ok _ => { report := { output := Command.usage } }
  | .unknown word =>
      { report := .failure (Command.unknownMessage word)
        hint := utf8 "Run 'dreamc --help' for usage.\n" }

def errorLine (message : Bytes) : Bytes :=
  utf8 "Error: " ++ message ++ utf8 "\n"

/-- What is written about an error: it is mentioned twice. -/
def errorText (run : Run) : Bytes :=
  match run.report.error with
  | some message => errorLine message ++ run.hint ++ errorLine message
  | none => []

def exitCode (run : Run) : Nat := if run.report.error.isSome then 1 else 0

end Run

end FeatureGate
