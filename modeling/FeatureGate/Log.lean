import FeatureGate.Json.Printer

/-!
Entries of the log. What is done leaves entries behind; which of them are
written depends on how much is asked for.
-/

namespace FeatureGate

inductive LogLevel where
  | debug
  | info
  | warn
deriving DecidableEq, Repr

inductive LogValue where
  | number (value : Nat)
  | bool (value : Bool)
  | text (value : Bytes)
  | texts (values : List Bytes)
deriving DecidableEq, Repr

structure LogEntry where
  level : LogLevel
  message : String
  fields : List (String × LogValue) := []
deriving DecidableEq, Repr

namespace LogLevel

def name : LogLevel → String
  | .debug => "debug"
  | .info => "info"
  | .warn => "warn"

end LogLevel

namespace LogEntry

/-- Whether two entries say the same, whatever their fields. -/
def sameMessage (a b : LogEntry) : Bool :=
  a.level = b.level && a.message = b.message

/-- How many entries of one message are written in a row, and then each which
one. -/
def burst : Nat := 100

/-- Whether the entry that says the same for the `n`-th time is written. -/
def passes (n : Nat) : Bool := n ≤ burst || (n - burst) % burst = 0

/-- Leave entries out that say the same too often; `earlier` are those
before. -/
def thin (earlier : List LogEntry) : List LogEntry → List LogEntry
  | [] => []
  | entry :: rest =>
      let n := (earlier.filter entry.sameMessage).length + 1
      if passes n then entry :: thin (entry :: earlier) rest
      else thin (entry :: earlier) rest

/-- The entries that are written: without debug entries unless they are asked
for, and not too often the same. -/
def written (verbose : Bool) (entries : List LogEntry) : List LogEntry :=
  thin [] (entries.filter fun entry => verbose || entry.level ≠ .debug)

/-- The value of a field as JSON. -/
def valueOutput : LogValue → JsonOutput
  | .number n => .number n
  | .bool b => .bool b
  | .text value => .text value
  | .texts values => .list (values.map .text)

/-- An entry as a line of JSON. -/
def line (entry : LogEntry) : Bytes :=
  (JsonOutput.record (("level", .text (utf8 entry.level.name))
    :: ("msg",
      .text (utf8 entry.message)) :: entry.fields.map fun (name, value) =>
        (name, valueOutput value))).line ++ utf8 "\n"

end LogEntry

end FeatureGate
