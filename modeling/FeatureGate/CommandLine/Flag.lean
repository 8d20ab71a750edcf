import FeatureGate.Text.Csv
import FeatureGate.Text.Quoted

/-!
Flags of the command line. A flag is written `--name`, `--name=value` or
`--name value`, and one with a letter also `-x`, `-xvalue`, `-x=value` or
`-x value`; letters of switches may be written together. Flags may stand among
the arguments; two hyphens alone end them.
-/

namespace FeatureGate

inductive Flag where
  | config
  | test
  | feature
  | malformed
  | verbose
  | help
deriving DecidableEq, Repr

namespace Flag

def name : Flag → Bytes
  | .config => utf8 "config"
  | .test => utf8 "test"
  | .feature => utf8 "feature"
  | .malformed => utf8 "malformed"
  | .verbose => utf8 "verbose"
  | .help => utf8 "help"

/-- The letter of a flag, if it has one. -/
def letter? : Flag → Option UInt8
  | .config => some (byte 'c')
  | .feature => some (byte 'f')
  | .verbose => some (byte 'v')
  | .help => some (byte 'h')
  | _ => none

/-- Whether a flag is a switch, which needs no value. -/
def isSwitch : Flag → Bool
  | .test | .verbose | .help => true
  | _ => false

/-- A flag as it is shown, with its letter if it has one. -/
def shown (flag : Flag) : Bytes :=
  match flag.letter? with
  | some letter => utf8 "-" ++ [letter] ++ utf8 ", --" ++ flag.name
  | none => utf8 "--" ++ flag.name

end Flag

structure Settings where
  config : Bytes := []
  /-- The value of the test switch, if it was given. -/
  test : Option Bool := none
  features : List Bytes := []
  malformed : Bytes := utf8 "warn"
  verbose : Bool := false
  help : Bool := false
deriving DecidableEq, Repr

/-- Why a value does not fit its flag. -/
inductive ValueFault where
  | notBool
  | notList (fault : Csv.Fault)
deriving DecidableEq, Repr

inductive FlagError where
  | badForm (arg : Bytes)
  | unknown (name : Bytes)
  | unknownLetter (letter : UInt8) (letters : Bytes)
  | noValue (name : Bytes)
  | noLetterValue (letter : UInt8) (letters : Bytes)
  | badValue (flag : Flag) (value : Bytes) (fault : ValueFault)
deriving DecidableEq, Repr

namespace FlagError

/-- The character that a letter is shown as. Of a byte beyond ASCII the first
byte of its encoding is shown. -/
def letterChar (letter : UInt8) : Char :=
  if letter < 0x80 then Char.ofNat letter.toNat
  else if letter < 0xC0 then Char.ofNat 0xC2
  else Char.ofNat 0xC3

/-- The wording of what is wrong with a value. -/
def reason (value : Bytes) : ValueFault → Bytes
  | .notBool => utf8 "strconv.ParseBool: parsing " ++ quote value ++
    utf8 ": invalid syntax"
  | .notList fault => fault.message

def message : FlagError → Bytes
  | .badForm arg => utf8 "bad flag syntax: " ++ arg
  | .unknown name => utf8 "unknown flag: --" ++ name
  | .unknownLetter letter letters =>
      utf8 "unknown shorthand flag: " ++ quoteChar (letterChar letter) ++
        utf8 " in -" ++ letters
  | .noValue name => utf8 "flag needs an argument: --" ++ name
  | .noLetterValue letter letters =>
      utf8 "flag needs an argument: " ++ quoteChar (letterChar letter) ++
        utf8 " in -" ++ letters
  | .badValue flag value fault =>
      utf8 "invalid argument " ++ quote value ++ utf8 " for " ++
        quote flag.shown
        ++ utf8 " flag: " ++ reason value fault

end FlagError

namespace Settings

def bool? (word : Bytes) : Option Bool :=
  if (["1", "t", "T", "true", "TRUE", "True"].map utf8).contains word then
    some true
  else if (["0", "f", "F", "false", "FALSE", "False"].map utf8).contains word
  then some false
  else none

/-- The names in a list; an empty text has none. -/
def names (text : Bytes) : Except Csv.Fault (List Bytes) :=
  if text.isEmpty then .ok [] else Csv.record text

def setSwitch (flag : Flag) (value : Bytes) (set : Bool → Settings) :
    Except FlagError Settings :=
  match bool? value with
  | some b => .ok (set b)
  | none => .error (.badValue flag value .notBool)

/-- Set a flag. Features add up; any other flag keeps its last value. -/
def set (s : Settings) (flag : Flag) (value : Bytes) :
    Except FlagError Settings :=
  match flag with
  | .config => .ok { s with config := value }
  | .malformed => .ok { s with malformed := value }
  | .feature =>
      match names value with
      | .ok more => .ok { s with features := s.features ++ more }
      | .error fault => .error (.badValue flag value (.notList fault))
  | .test => setSwitch flag value fun b => { s with test := some b }
  | .verbose => setSwitch flag value fun b => { s with verbose := b }
  | .help => setSwitch flag value fun b => { s with help := b }

def setAll (s : Settings) : List (Flag × Bytes) → Except FlagError Settings
  | [] => .ok s
  | (flag, value) :: rest =>
      match s.set flag value with
      | .ok s => s.setAll rest
      | .error error => .error error

end Settings

namespace Flag

/-- The value of a switch that is given without one. -/
def onValue : Bytes := utf8 "true"

inductive Shape where
  | plain
  | endOfFlags
  /-- Flags with their values, and perhaps one more whose value is the next
  argument; without a next argument that is an error. -/
  | flags (values : List (Flag × Bytes)) (pending : Option (Flag × FlagError))
deriving Repr

/-- Put a flag with its value in front. -/
def Shape.add (flag : Flag) (value : Bytes) : Shape → Shape
  | .flags values pending => .flags ((flag, value) :: values) pending
  | shape => shape

/-- What letters behind one hyphen stand for. -/
def letters (known : List Flag) : Bytes → Except FlagError Shape
  | [] => .ok (.flags [] none)
  | c :: rest =>
      if (utf8 "test.").isPrefixOf (c :: rest) then .ok (.flags [] none)
      else
        match known.find? fun flag => flag.letter? = some c with
        | none => .error (.unknownLetter c (c :: rest))
        | some flag =>
            if rest.head? = some (byte '=') && 1 < rest.length then
              .ok (.flags [(flag, rest.tail)] none)
            else if flag.isSwitch then (letters known rest).map
              (·.add flag onValue)
            else if !rest.isEmpty then .ok (.flags [(flag, rest)] none)
            else .ok (.flags [] (some (flag, .noLetterValue c [c])))

/-- What a name behind two hyphens stands for. -/
def long (known : List Flag) (arg text : Bytes) : Except FlagError Shape :=
  if text.head? = some (byte '-') || text.head? = some (byte '=') then
    .error (.badForm arg)
  else
    let (name, value) := Bytes.cutAt (· = byte '=') text
    match known.find? fun flag => flag.name = name with
    | none => .error (.unknown name)
    | some flag =>
        match value with
        | _ :: value => .ok (.flags [(flag, value)] none)
        | [] =>
            if flag.isSwitch then .ok (.flags [(flag, onValue)] none)
            else .ok (.flags [] (some (flag, .noValue name)))

/-- What an argument is, where these flags are known. -/
def shape (known : List Flag) (arg : Bytes) : Except FlagError Shape :=
  match Bytes.stripLead? (utf8 "--") arg with
  | some [] => .ok .endOfFlags
  | some text => long known arg text
  | none =>
      match Bytes.stripLead? (utf8 "-") arg with
      | none | some [] => .ok .plain
      | some text => letters known text

/-- Read the flags among the arguments: what they say, and the other
arguments. -/
def parse (known : List Flag) :
    List Bytes → Settings → Except FlagError (Settings × List Bytes)
  | [], s => .ok (s, [])
  | arg :: rest, s =>
      match shape known arg with
      | .error error => .error error
      | .ok .plain =>
          (parse known rest s).map fun (s, others) => (s, arg :: others)
      | .ok .endOfFlags => .ok (s, rest)
      | .ok (.flags values pending) =>
          match s.setAll values, pending, rest with
          | .error error, _, _ => .error error
          | .ok s, none, rest => parse known rest s
          | .ok _, some (_, missing), [] => .error missing
          | .ok s, some (flag, _), value :: rest =>
              match s.set flag value with
              | .error error => .error error
              | .ok s => parse known rest s

end Flag

end FeatureGate
