import FeatureGate.CommandLine.Command
import FeatureGate.Watcher

/-!
The options that a command works under: those of the config file, and over them
the flags. A config file that does not exist counts as an empty one. Which files
a call reads is known from its arguments, but for the manifest, which the config
file names.
-/

namespace FeatureGate

namespace Settings

/-- Put the flags over options. -/
def applyTo (s : Settings) (o : CompileOptions) : CompileOptions :=
  s.features.foldl CompileOptions.enable
    (match s.test with
      | some value => o.setTest value
      | none => o)

/-- The options of the config file, if one is given. -/
def configOptions (s : Settings) (d : Decoders) (view : FileView) :
    Except ReloadFault CompileOptions :=
  if s.config.isEmpty then .ok {}
  else
    match Config.loadOptions d view s.config with
    | .error (.config .notFound) => .ok {}
    | result => result

/-- The options that a command works under. -/
def options (s : Settings) (d : Decoders) (view : FileView) :
    Except ReloadFault CompileOptions :=
  (s.configOptions d view).map s.applyTo

/-- The wording of a fault of the config file. -/
def faultMessage (s : Settings) : ReloadFault → Bytes
  | .config fault => fault.message s.config
  | .manifest error =>
      utf8 "config " ++ s.config ++ utf8 ": " ++ Config.manifestMessage error

end Settings

/-- A view of the files that have been read; all others are missing. -/
def FileView.ofRead (workFolder : Bytes)
    (files : List (Bytes × Except FileFault Bytes)) (folders : List Bytes) :
    FileView where
  workFolder := workFolder
  read path := (files.lookup path).getD (.error .missing)
  watch path := if folders.contains path then .ok () else .error .missing

/-- The config file at a path, and the manifest it names as far as it can be
read. -/
def Config.needs (d : Decoders) (view : FileView) (path : Bytes) : List Bytes :=
  match load d view path with
  | .ok config => path :: (config.manifestPath? (Path.folder path)).toList
  | .error _ => [path]

namespace Call

/-- The flags and the other arguments of a call. -/
def settings? : Call → Option (Settings × List Bytes)
  | .known command args => (Flag.parse command.flags args {}).toOption
  | _ => none

/-- The files that a call reads, as far as the view tells. -/
def needs (call : Call) (d : Decoders) (view : FileView) : List Bytes :=
  match call.settings? with
  | some (s, files) =>
      files ++ if s.config.isEmpty then [] else Config.needs d view s.config
  | none => []

def watches (call : Call) (view : FileView) : List Bytes :=
  match call.settings? with
  | some (s, _) => [Path.folder (Path.absolute view.workFolder s.config)]
  | none => []

end Call

end FeatureGate
