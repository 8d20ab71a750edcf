import FeatureGate.Source.SyntaxError

/-!
Reading a token list with limited backtracking. A reader answers that its
construct is absent, that it found a value, or that the text is at fault. An
optional or repeated part is tried on a copy of the cursor; a fault in it is
final only when the copy has gone more than two tokens further, otherwise the
part counts as missing and reading goes on behind it. Beside the place, a cursor
keeps the deepest fault it has met, which is told when tokens are left over at
the end.
-/

namespace FeatureGate

/-- What a reader may complain about: the token found, none at the end, and what
was expected. -/
structure Fault where
  found : Option Token
  expected : String
deriving DecidableEq, Repr

/-- A place in a token list, with the deepest fault so far and how deep it
was. -/
structure Cursor where
  rest : List Token
  index : Nat := 0
  deepest : Option Fault := none
  depth : Nat := 0
deriving DecidableEq, Repr

/-- The answer of a reader. -/
inductive Outcome (α : Type) where
  /-- The construct does not begin here. -/
  | absent
  /-- The construct was read, up to the cursor. -/
  | found (value : α) (cursor : Cursor)
  /-- The construct begins here and goes wrong at the cursor. -/
  | fault (reason : Fault) (cursor : Cursor)
deriving DecidableEq, Repr

/-- A reader of some construct. -/
def Reader (α : Type) : Type := Cursor → Outcome α

namespace Cursor

/-- How many tokens a faulty part may have taken and still count as missing. -/
def lookahead : Nat := 2

/-- Keep a fault met at this place, if none deeper is known. -/
def note (c : Cursor) (reason : Fault) : Cursor :=
  if c.depth ≤ c.index then { c with deepest := some reason, depth := c.index }
  else c

/-- Go on where a copy of this cursor arrived. -/
def accept (c copy : Cursor) : Cursor :=
  if c.depth ≤ copy.depth then copy
  else { copy with deepest := c.deepest, depth := c.depth }

/-- Take over what a failed copy knows of the deepest fault. -/
def learn (c : Cursor) (reason : Fault) (copy : Cursor) : Cursor :=
  if c.depth < copy.depth then
    { c with deepest := copy.deepest, depth := copy.depth }
  else if c.depth ≤ copy.index then
    { c with deepest := some reason, depth := max copy.index copy.depth }
  else c

/-- Whether a failed copy has gone too far to be forgotten. -/
def isFinal (c copy : Cursor) : Bool := c.index + lookahead < copy.index

end Cursor

namespace Reader

protected def pure {α : Type} (value : α) : Reader α := fun c => .found value c

protected def bind {α β : Type} (r : Reader α) (next : α → Reader β) :
    Reader β := fun c =>
  match r c with
  | .absent => .absent
  | .found value c' => next value c'
  | .fault reason c' => .fault reason c'

instance : Monad Reader where
  pure := Reader.pure
  bind := Reader.bind

/-- Read one token that satisfies the test. -/
def token (test : Token → Bool) : Reader Token := fun c =>
  match c.rest with
  | [] => .absent
  | t :: rest =>
      if test t then .found t { c with rest := rest, index := c.index + 1 }
      else .absent

/-- A construct that must follow; `expected` describes it and all that must come
after it. -/
def require {α : Type} (expected : String) (r : Reader α) : Reader α := fun c =>
  match r c with
  | .absent => .fault ⟨c.rest.head?, expected⟩ c
  | outcome => outcome

/-- A construct with a name of its own keeps its faults. -/
def construct {α : Type} (r : Reader α) : Reader α := fun c =>
  match r c with
  | .fault reason c' => .fault reason (c'.note reason)
  | outcome => outcome

/-- A part that may be missing. -/
def optional {α : Type} (r : Reader α) : Reader (Option α) := fun c =>
  match r c with
  | .absent => .found none c
  | .found value copy => .found (some value) (c.accept copy)
  | .fault reason copy =>
      let c' := (c.note reason).learn reason copy
      if c.isFinal copy then .fault reason (c'.accept copy) else .found none c'

/-- At most `limit` repetitions of a part. -/
def repeatUpTo {α : Type} (r : Reader α) : (limit : Nat) → Reader (List α)
  | 0 => fun c => .found [] c
  | limit + 1 => fun c =>
      match r c with
      | .absent => .found [] c
      | .found value copy =>
          match repeatUpTo r limit (c.accept copy) with
          | .found values c' => .found (value :: values) c'
          | .fault reason c' => .fault reason c'
          | .absent => .absent
      | .fault reason copy =>
          let c' := (c.note reason).learn reason copy
          if c.isFinal copy then .fault reason (c'.accept copy)
          else .found [] c'

/-- A part repeated as often as it occurs; each time takes a token at least. The
number of times has no other bound, so a text is read also where one part is
repeated a million times, which a reader with a fixed limit would refuse. -/
def many {α : Type} (r : Reader α) : Reader (List α) := fun c =>
  repeatUpTo r (c.rest.length + 1) c

/-- The first of two constructs that occurs. -/
def either {α : Type} (first second : Reader α) : Reader α := fun c =>
  match first c with
  | .found value copy => .found value (c.accept copy)
  | .absent =>
      match second c with
      | .found value copy => .found value (c.accept copy)
      | .absent => .absent
      | .fault reason copy =>
          let c' := c.learn reason copy
          if c.isFinal copy then .fault reason (c'.accept copy)
          else .fault reason (c'.note reason)
  | .fault reason copy =>
      let c' := c.learn reason copy
      if c.isFinal copy then .fault reason (c'.accept copy)
      else
        match second c' with
        | .found value copy' => .found value (c'.accept copy')
        | .absent => .fault reason (c'.note reason)
        | .fault reason' copy' =>
            let c'' := c'.learn reason' copy'
            if c'.isFinal copy' then .fault reason' (c''.accept copy')
            else
              let worst := if copy.index ≤ copy'.index then reason' else reason
              .fault worst (c''.note worst)

/-- Read the whole token list. When tokens are left over, the deepest fault is
told if it lies behind the first of them. -/
def run {α : Type} (r : Reader α) (tokens : List Token) :
    Except (Option Token × Option String) α :=
  match r { rest := tokens } with
  | .absent => .error (tokens.head?, none)
  | .fault reason _ => .error (reason.found, some reason.expected)
  | .found value c =>
      match c.rest with
      | [] => .ok value
      | t :: _ =>
          if c.depth ≤ c.index then .error (some t, none)
          else
            match c.deepest with
            | some reason => .error (reason.found, some reason.expected)
            | none => .error (some t, none)

end Reader

end FeatureGate
