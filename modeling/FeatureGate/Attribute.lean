import FeatureGate.Text.Quoted

/-!
Attributes and items. An attribute such as `#[cfg(all(test, feature = "x"))]`
has a name and an argument payload; its parenthesised payload is a list of
terms. An item is a declaration header with the attributes in front of it.
-/

namespace FeatureGate

/-- A term inside a parenthesised list. A `hole` stands where a condition is
missing. -/
inductive Term where
  | ident (name : Bytes)
  | keyValue (key value : Bytes)
  | call (name : Bytes) (args : List Term)
  | hole
deriving Inhabited, Repr

namespace Term

mutual

protected def decEq : (a b : Term) → Decidable (a = b)
  | .ident n, .ident m => decidable_of_iff (n = m) (by simp)
  | .keyValue k v, .keyValue l w => decidable_of_iff (k = l ∧ v = w) (by simp)
  | .call n as, .call m bs =>
      have := Term.decEqList as bs
      decidable_of_iff (n = m ∧ as = bs) (by simp)
  | .hole, .hole => isTrue rfl
  | .ident _, .keyValue _ _ | .ident _, .call _ _ | .ident _, .hole =>
      isFalse (by simp)
  | .keyValue _ _, .ident _ | .keyValue _ _, .call _ _ | .keyValue _ _, .hole =>
      isFalse (by simp)
  | .call _ _, .ident _ | .call _ _, .keyValue _ _ | .call _ _, .hole =>
      isFalse (by simp)
  | .hole, .ident _ | .hole, .keyValue _ _ | .hole, .call _ _ =>
      isFalse (by simp)

/-- Equality of lists of terms is decidable. -/
protected def decEqList : (as bs : List Term) → Decidable (as = bs)
  | [], [] => isTrue rfl
  | [], _ :: _ | _ :: _, [] => isFalse (by simp)
  | a :: as, b :: bs =>
      have := Term.decEq a b
      have := Term.decEqList as bs
      decidable_of_iff (a = b ∧ as = bs) (by simp)

end

instance : DecidableEq Term := Term.decEq

mutual

/-- Induction over terms, in which a call is reached from all its arguments. -/
@[elab_as_elim, induction_eliminator]
theorem induction {P : Term → Prop} (ident : ∀ name, P (.ident name))
    (keyValue : ∀ key value, P (.keyValue key value))
    (call : ∀ name args, (∀ t ∈ args, P t) → P (.call name args))
    (hole : P .hole) :
    ∀ t, P t
  | .ident name => ident name
  | .keyValue key value => keyValue key value
  | .call name args =>
      call name args (inductionList ident keyValue call hole args)
  | .hole => hole

theorem inductionList {P : Term → Prop} (ident : ∀ name, P (.ident name))
    (keyValue : ∀ key value, P (.keyValue key value))
    (call : ∀ name args, (∀ t ∈ args, P t) → P (.call name args))
    (hole : P .hole) :
    ∀ ts : List Term, ∀ t ∈ ts, P t
  | [], _, h => nomatch h
  | t :: ts, t', h =>
      match List.mem_cons.mp h with
      | .inl heq => heq ▸ induction ident keyValue call hole t
      | .inr hmem => inductionList ident keyValue call hole ts t' hmem

end

end Term

/-- The payload of an attribute. -/
inductive Args where
  | none
  | eq (value : Bytes)
  | paren (terms : List Term)
deriving DecidableEq, Repr

/-- Where an attribute or item lies: the offset of its first byte, the offset
just past its last token, and the line and column of its first token. -/
structure Span where
  start : Nat := 0
  stop : Nat := 0
  line : Nat := 0
  column : Nat := 0
deriving DecidableEq, Repr

structure Attribute where
  name : Bytes
  args : Args := .none
  span : Span := {}
deriving DecidableEq, Repr

/-- A declaration header with its attributes. -/
structure Item where
  kind : Bytes
  name : Bytes
  attrs : List Attribute := []
  span : Span := {}
deriving DecidableEq, Repr

namespace Term

mutual

/-- The source form of a term; a hole has none. -/
def render? : Term → Option Bytes
  | .ident name => some name
  | .keyValue key value => some (key ++ utf8 " = " ++ quote value)
  | .call name args =>
      some (name ++ utf8 "(" ++ Bytes.join (utf8 ", ")
        (renderAll args) ++ utf8 ")")
  | .hole => none

/-- The source forms of the terms that are no holes. -/
def renderAll : List Term → List Bytes
  | [] => []
  | t :: ts =>
      match render? t with
      | some text => text :: renderAll ts
      | none => renderAll ts

end

end Term

namespace Attribute

def render (attr : Attribute) : Bytes :=
  match attr.args with
  | .none => utf8 "#[" ++ attr.name ++ utf8 "]"
  | .eq value => utf8 "#[" ++ attr.name ++ utf8 " = " ++ quote value ++ utf8 "]"
  | .paren terms =>
      utf8 "#[" ++ attr.name ++ utf8 "(" ++ Bytes.join (utf8 ", ")
        (Term.renderAll terms)
        ++ utf8 ")]"

end Attribute

end FeatureGate
