import FeatureGate.CompileOptions
import FeatureGate.Manifest

/-!
Config files and the options they stand for. Files named `.json` are JSON, all
others YAML.
-/

namespace FeatureGate

/-- Why a config file cannot be used. -/
inductive ConfigFault where
  | notFound
  | unreadable (fault : FileFault)
  | malformed (format : ConfigFormat)
deriving DecidableEq, Repr

/-- The wording of a fault of the config file at a path. -/
def ConfigFault.message (fault : ConfigFault) (path : Bytes) : Bytes :=
  match fault with
  | .notFound => utf8 "config file not found: " ++ path
  | .unreadable fault => utf8 "reading config: " ++ fault.describe path
  | .malformed .json => utf8 "parsing config json"
  | .malformed .yaml => utf8 "parsing config yaml"

/-- Why the options of a config file cannot be had. -/
inductive ReloadFault where
  | config (fault : ConfigFault)
  | manifest (error : ManifestError)
deriving DecidableEq, Repr

/-- The format of the file at a path. -/
def ConfigFormat.ofPath (path : Bytes) : ConfigFormat :=
  if (Path.extension path).map Bytes.toLower = utf8 ".json" then .json
  else .yaml

namespace Config

/-- The config in the file at a path. -/
def load (d : Decoders) (view : FileView) (path : Bytes) :
    Except ConfigFault Config :=
  match view.read path with
  | .error .missing => .error .notFound
  | .error fault => .error (.unreadable fault)
  | .ok text =>
      let format := ConfigFormat.ofPath path
      match d.config? format text with
      | some config => .ok config
      | none => .error (.malformed format)

/-- The path of the manifest, read from the folder `base`. -/
def manifestPath? (config : Config) (base : Bytes) : Option Bytes :=
  let path := config.manifest.path
  if path.isEmpty then none
  else some (if Path.isAbsolute path then path else Path.join base path)

def manifestFeatures (config : Config) (d : Decoders) (view : FileView)
    (base : Bytes) : Except ManifestError (List Bytes) :=
  match config.manifestPath? base with
  | none => .ok []
  | some path => Manifest.features d view path config.manifest.query

/-- The options that the config stands for: its own features and those of its
manifest. -/
def options (config : Config) (d : Decoders) (view : FileView)
    (base : Bytes) : Except ManifestError CompileOptions :=
  (config.manifestFeatures d view base).map fun names =>
    (CompileOptions.withFeatures (config.features ++ names)).setTest config.test

/-- The options of the config file at a path; its manifest is looked for beside
it. -/
def loadOptions (d : Decoders) (view : FileView) (path : Bytes) :
    Except ReloadFault CompileOptions :=
  match load d view path with
  | .error fault => .error (.config fault)
  | .ok config =>
      (config.options d view (Path.folder path)).mapError .manifest

/-- The wording of an error in the config's manifest. -/
def manifestMessage (error : ManifestError) : Bytes :=
  utf8 "manifest: " ++ error.message

end Config

/-- The wording of a fault of the config file at a path. -/
def ReloadFault.message (fault : ReloadFault) (path : Bytes) : Bytes :=
  match fault with
  | .config fault => fault.message path
  | .manifest error => Config.manifestMessage error

end FeatureGate
