import FeatureGate.Config.Load
import FeatureGate.Log
import FeatureGate.Store

/-!
Watching a config file. Each change of the file makes its options the current
ones; as long as the file cannot be used, the options stay what they were.
-/

namespace FeatureGate

/-- What happened to a file in a watched folder. An event that is none of these,
such as a removal or a change of mode, has no mark. -/
structure FileEvent where
  name : Bytes
  created : Bool := false
  written : Bool := false
  renamed : Bool := false
deriving DecidableEq, Repr

/-- A watched config file, by its absolute path, and the store of its
options. -/
structure Watcher where
  path : Bytes
  store : Store
deriving DecidableEq, Repr

/-- What an event led to. -/
inductive Reaction where
  | ignored
  | failed (fault : ReloadFault)
  | reloaded (snapshot : Snapshot)
deriving DecidableEq, Repr

namespace Watcher

def new (view : FileView) (path : Bytes) (store : Store) : Watcher :=
  ⟨Path.absolute view.workFolder path, store⟩

/-- The folder whose events are watched, so that a file put in place of another
is noticed. -/
def folder (w : Watcher) : Bytes := Path.folder w.path

/-- Whether an event may have changed the config file. -/
def isRelevant (w : Watcher) (event : FileEvent) : Bool :=
  Path.clean event.name = w.path
    && (event.written || event.created || event.renamed)

/-- Load the file again and publish its options. -/
def reload (w : Watcher) (d : Decoders) (view : FileView) :
    Watcher × Reaction :=
  match Config.loadOptions d view w.path with
  | .error fault => (w, .failed fault)
  | .ok options =>
      let store := w.store.swap options
      ({ w with store := store }, .reloaded store.load)

def react (w : Watcher) (d : Decoders) (view : FileView) (event : FileEvent) :
    Watcher × Reaction :=
  if w.isRelevant event then w.reload d view else (w, .ignored)

def log (w : Watcher) : Reaction → List LogEntry
  | .ignored => []
  | .failed fault =>
      [{ level := .warn, message := "Reload failed, keeping previous options"
         fields := [("path", .text w.path),
           ("error", .text (fault.message w.path))] }]
  | .reloaded snapshot =>
      [{ level := .info, message := "Compile options reloaded"
         fields := [("version", .number snapshot.version.toNat),
           ("test", .bool snapshot.options.test),
           ("features", .texts snapshot.options.features.names)] }]

def startLog (w : Watcher) : List LogEntry :=
  [{ level := .info, message := "Watching compile options"
     fields := [("path", .text w.path)] }]

end Watcher

end FeatureGate
