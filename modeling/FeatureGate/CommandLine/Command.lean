import FeatureGate.CommandLine.Flag

/-!
Which command is called. The command is the first argument that is neither a
flag nor the value of one; before it only the flag for all commands is known,
and of any other flag it is not known whether the next argument is its value, so
that one is taken for it.
-/

namespace FeatureGate

inductive Command where
  | check
  | features
  | lint
  | tests
  | watch
  | help
  | completion
deriving DecidableEq, Repr

namespace Command

def program : Bytes := utf8 "dreamc"

def all : List Command :=
  [.check, .features, .lint, .tests, .watch, .help, .completion]

def name : Command → Bytes
  | .check => utf8 "check"
  | .features => utf8 "features"
  | .lint => utf8 "lint"
  | .tests => utf8 "tests"
  | .watch => utf8 "watch"
  | .help => utf8 "help"
  | .completion => utf8 "completion"

def commonFlags : List Flag := [.verbose, .help]

def flags : Command → List Flag
  | .check | .features | .watch => [.config, .test, .feature] ++ commonFlags
  | .lint => .malformed :: commonFlags
  | _ => commonFlags

def ofName? (name : Bytes) : Option Command :=
  all.find? fun command => command.name = name

/-- Whether the next argument counts as the value of this one. -/
def takesNext (arg : Bytes) : Bool :=
  let switch := Flag.verbose
  if arg.contains (byte '=') then false
  else if (utf8 "--").isPrefixOf arg then arg.drop 2 ≠ switch.name
  else if (utf8 "-").isPrefixOf arg && arg.length = 2 then arg[1]? ≠
    switch.letter?
  else false

/-- Whether an argument is the mark that ends the flags. -/
def isEnd (arg : Bytes) : Bool := arg = utf8 "--"

/-- The arguments that are neither flags nor their values. A value at the very
end is looked at no more. -/
def words : List Bytes → List Bytes
  | [] => []
  | arg :: rest =>
      if isEnd arg then []
      else if takesNext arg then
        match rest with
        | [] | [_] => []
        | _ :: rest => words rest
      else if arg.isEmpty || (utf8 "-").isPrefixOf arg then words rest
      else arg :: words rest

/-- The arguments without the first that is the word and not the value of a
flag. -/
def without (word : Bytes) : List Bytes → List Bytes
  | [] => []
  | arg :: rest =>
      if isEnd arg then arg :: rest
      else if takesNext arg then
        match rest with
        | [] => [arg]
        | value :: rest => arg :: value :: without word rest
      else if arg = word then rest
      else arg :: without word rest

end Command

namespace Distance

/-- The distances for one more byte of the first word, from those without it.
`above` begins with the distance to the part of the second word before `t`, and
`left` is that of the new row. -/
def row (c : UInt8) : (t : Bytes) → (above : List Nat) → (left : Nat) → List Nat
  | b :: t, corner :: top :: above, left =>
      let here := if b = c then corner else 1 + min (min top left) corner
      here :: row c t (top :: above) here
  | _, _, _ => []

/-- The distances from a word to every beginning of another. -/
def rows (t : Bytes) : (s : Bytes) → (start : Nat) → List Nat → List Nat
  | [], _, above => above
  | c :: s, start, above =>
      rows t s (start + 1) ((start + 1) :: row c t above (start + 1))

end Distance

/-- The least number of bytes to be changed between two words. -/
def distance (s t : Bytes) : Nat :=
  (Distance.rows t s 0 (List.range (t.length + 1))).getLast?.getD 0

example : distance (utf8 "chekc") (utf8 "check") = 2 := by decide
example : distance [] (utf8 "lint") = 4 := by decide

namespace Command

/-- How far a word may be from the name of a command that is meant. -/
def nearby : Nat := 2

/-- Whether a word may be meant for a name: it is close to it, or begins it. -/
def resembles (word : Bytes) (name : Bytes) : Bool :=
  let word := Utf8.ofChars (lowerChars word)
  distance word name ≤ nearby || word.isPrefixOf name

/-- The commands that may be meant by a word. -/
def suggestions (word : Bytes) : List Bytes :=
  ((all.filter (· ≠ .help)).map name).filter (resembles word)

/-- The wording of the complaint about an unknown command. -/
def unknownMessage (word : Bytes) : Bytes :=
  let hints := suggestions word
  let lines := hints.flatMap fun hint => utf8 "\t" ++ hint ++ utf8 "\n"
  utf8 "unknown command " ++ quote word ++ utf8 " for " ++ quote program
    ++ if hints.isEmpty then [] else utf8 "\n\nDid you mean this?\n" ++ lines

end Command

/-- What is called: a command with its arguments, no command, or one that does
not exist. -/
inductive Call where
  | known (command : Command) (args : List Bytes)
  | nothing (args : List Bytes)
  | unknown (word : Bytes)
deriving DecidableEq, Repr

namespace Call

def ofArgs (args : List Bytes) : Call :=
  match Command.words args with
  | [] => .nothing args
  | word :: _ =>
      match Command.ofName? word with
      | some command => .known command (Command.without word args)
      | none => .unknown word

end Call

end FeatureGate
