import FeatureGate.CommandLine.Run
import FeatureGate.Config.Builtin

/-!
The command line: reads the files that the arguments name, runs the command on
them, and writes what it reports. A watched config file is looked at again and
again.
-/

namespace FeatureGate

namespace Main

def textOf (bytes : Bytes) : String := String.ofList (Utf8.chars bytes)

def faultOf : IO.Error → FileFault
  | .noFileOrDirectory .. => .missing
  | .inappropriateType _ code _ => if code = 20 then .notFolder else .isFolder
  | .invalidArgument .. => .invalidName
  | _ => .isFolder

def readFile (path : Bytes) : IO (Except FileFault Bytes) := do
  if path.isEmpty then return .error .missing
  try
    return .ok (← IO.FS.readBinFile (textOf path)).toList
  catch error => return .error (faultOf error)

def isFolder (path : Bytes) : IO Bool :=
  do ((← IO.currentDir) / textOf path).isDir

def fetch (workFolder : Bytes) (files folders : List Bytes) : IO FileView := do
  let found ← files.mapM fun path => do return (path, ← readFile path)
  return .ofRead workFolder found (← folders.filterM isFolder)

/-- Write a report, and what is said about its error. -/
def write (verbose : Bool) (report : Report) (errorText : Bytes) : IO Unit := do
  let err ← IO.getStderr
  let out ← IO.getStdout
  for entry in LogEntry.written verbose report.log do
    err.write ⟨entry.line.toArray⟩
  out.write ⟨report.output.toArray⟩
  out.flush
  err.write ⟨errorText.toArray⟩
  err.flush

/-- Look at the watched file again and again, and report when its content has
changed. -/
partial def watch (verbose : Bool) (workFolder : Bytes) (session : WatchSession)
    (last : Except FileFault Bytes) : IO Unit := do
  IO.sleep 200
  let path := session.watcher.path
  let now ← readFile path
  match now, last with
  | .error _, _ => watch verbose workFolder session now
  | .ok new, .ok old =>
      if new = old then watch verbose workFolder session now
      else reload now
  | .ok _, .error _ => reload now
where
  /-- Load the config file again. -/
  reload (now : Except FileFault Bytes) : IO Unit := do
    let path := session.watcher.path
    let first ← fetch workFolder [path] []
    let view ← fetch workFolder (Config.needs .builtin first path) []
    let (session, report) := session.react .builtin view { name := path,
                                                           written := true }
    if let some report := report then write verbose report []
    watch verbose workFolder session now

end Main

end FeatureGate

open FeatureGate in
def main (args : List String) : IO UInt32 := do
  let args := args.map utf8
  let call := Call.ofArgs args
  let workFolder := utf8 (← IO.currentDir).toString
  let blank := FileView.ofRead workFolder [] []
  let first ← Main.fetch workFolder (call.needs .builtin blank) []
  let view ← Main.fetch workFolder (call.needs .builtin first)
      (call.watches blank)
  let run := Run.ofArgs .builtin view args
  Main.write run.verbose run.report run.errorText
  if let some session := run.session then
    Main.watch run.verbose workFolder session
      (← Main.readFile session.watcher.path)
  return run.exitCode.toUInt32
