import FeatureGate.CompileOptions

/-!
The store of options. Readers take a snapshot and go on using it; a change
publishes a new snapshot under the next version and leaves every earlier one as
it was. Versions are counted in 64 bits, so after the last comes zero.
-/

namespace FeatureGate

/-- Options published under a version number. -/
structure Snapshot where
  version : UInt64
  options : CompileOptions
deriving DecidableEq, Repr

/-- Options as they are published next after a snapshot. -/
def Snapshot.successor (snapshot : Snapshot) (options : CompileOptions) :
    Snapshot :=
  ⟨snapshot.version + 1, options⟩

/-- A store holds the snapshot that is current. -/
structure Store where
  current : Snapshot
deriving DecidableEq, Repr

namespace Store

def new (options : CompileOptions) : Store := ⟨⟨1, options⟩⟩

def load (store : Store) : Snapshot := store.current

/-- Publish options under the next version. -/
def swap (store : Store) (options : CompileOptions) : Store :=
  ⟨store.load.successor options⟩

end Store

end FeatureGate
