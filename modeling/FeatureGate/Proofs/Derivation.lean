import FeatureGate.Grammar.Items
import FeatureGate.Proofs.Scanning

/-!
Derivations of the grammar. A tree of one of these types is a derivation of its
rule: its leaves are tokens that pass the tests of the rule, and nothing else
can be built. `tokens` lists the leaves, `value` is what the derivation means.
No token list has two derivations.
-/

namespace FeatureGate

namespace Grammar

def isName (t : Token) : Bool := t.kind = .ident

def isString (t : Token) : Bool := t.kind = .string

def isMark (c : Char) (t : Token) : Bool := t.kind = .punct && t.text = [byte c]

/-- A leaf of a derivation: a token that passes the test of its rule. -/
abbrev Leaf (test : Token → Bool) : Type := { t : Token // test t = true }

mutual

/-- `term := name payload` -/
inductive TermTree where
  | node (name : Leaf isName) (payload : PayloadTree)

/-- `payload := "=" string | "(" list ")"`, or nothing -/
inductive PayloadTree where
  | nothing
  | equals (sign : Leaf (isMark '=')) (value : Leaf isString)
  | parens (opening : Leaf (isMark '(')) (inside : ListTree)
      (closing : Leaf (isMark ')'))

/-- `list := term tail`, or nothing -/
inductive ListTree where
  | empty
  | terms (first : TermTree) (others : TailTree)

/-- `tail := "," term tail | ","`, or nothing -/
inductive TailTree where
  | done
  | comma (mark : Leaf (isMark ','))
  | more (mark : Leaf (isMark ',')) (next : TermTree) (others : TailTree)

end

mutual

def TermTree.tokens : TermTree → List Token
  | .node name payload => name.1 :: payload.tokens

def PayloadTree.tokens : PayloadTree → List Token
  | .nothing => []
  | .equals sign value => [sign.1, value.1]
  | .parens opening inside closing => opening.1 :: inside.tokens ++ [closing.1]

def ListTree.tokens : ListTree → List Token
  | .empty => []
  | .terms first others => first.tokens ++ others.tokens

def TailTree.tokens : TailTree → List Token
  | .done => []
  | .comma mark => [mark.1]
  | .more mark next others => mark.1 :: next.tokens ++ others.tokens

end

mutual

def TermTree.value : TermTree → Term
  | .node name payload =>
      match payload.value with
      | .none => .ident name.1.text
      | .eq value => .keyValue name.1.text value
      | .paren terms => .call name.1.text terms

/-- The payload a derivation stands for. A string that cannot be unquoted is
kept as it is, and a list without terms is still a list. -/
def PayloadTree.value : PayloadTree → Args
  | .nothing => .none
  | .equals _ value => .eq ((unquote? value.1.text).getD value.1.text)
  | .parens _ inside _ => .paren inside.values

def ListTree.values : ListTree → List Term
  | .empty => []
  | .terms first others => first.value :: others.values

def TailTree.values : TailTree → List Term
  | .done => []
  | .comma _ => []
  | .more _ next others => next.value :: others.values

end

/-- `attribute := "#" "[" name payload "]"` -/
structure AttributeTree where
  hash : Leaf (isMark '#')
  opening : Leaf (isMark '[')
  name : Leaf isName
  payload : PayloadTree
  closing : Leaf (isMark ']')

/-- `item := attribute* name name ";"?` -/
structure ItemTree where
  attrs : List AttributeTree
  kind : Leaf isName
  name : Leaf isName
  semicolon : Option (Leaf (isMark ';'))

namespace AttributeTree

def tokens (tree : AttributeTree) : List Token :=
  tree.hash.1 :: tree.opening.1 :: tree.name.1 :: (tree.payload.tokens ++
    [tree.closing.1])

/-- The attribute a derivation stands for; it reaches from the hash to the
closing bracket. -/
def value (tree : AttributeTree) : Attribute where
  name := tree.name.1.text
  args := tree.payload.value
  span := spanOf tree.hash.1 tree.closing.1

end AttributeTree

namespace ItemTree

def tokens (tree : ItemTree) : List Token :=
  tree.attrs.flatMap AttributeTree.tokens
    ++ tree.kind.1 :: tree.name.1 :: (tree.semicolon.map Subtype.val).toList

/-- The first token of the first attribute, or the kind. -/
def first (tree : ItemTree) : Token :=
  match tree.attrs with
  | [] => tree.kind.1
  | attr :: _ => attr.hash.1

def last (tree : ItemTree) : Token :=
  (tree.semicolon.map Subtype.val).getD tree.name.1

/-- The item a derivation stands for, with exactly the attributes in front of
its header. -/
def value (tree : ItemTree) : Item where
  kind := tree.kind.1.text
  name := tree.name.1.text
  attrs := tree.attrs.map AttributeTree.value
  span := spanOf tree.first tree.last

end ItemTree

theorem isMark_disjoint {c d : Char} {t : Token} (hne : byte c ≠ byte d)
    (h : isMark c t = true) : isMark d t = false := by
  simp only [isMark, Bool.and_eq_true, decide_eq_true_eq] at h
  simp [isMark, h, hne]

theorem isMark_of_isName {t : Token} (h : isName t = true) (c : Char) :
    isMark c t = false := by
  simp only [isName, decide_eq_true_eq] at h
  simp [isMark, h]

theorem isName_of_isMark {c : Char} {t : Token} (h : isMark c t = true) :
    isName t = false := by
  simp only [isMark, Bool.and_eq_true, decide_eq_true_eq] at h
  simp [isName, h]

/-- What may follow a payload: nothing that would begin one or go on with it. -/
def EndsPayload (rest : List Token) : Prop :=
  StopsAt (isMark '=') rest ∧ StopsAt (isMark '(') rest

/-- What follows the inside of a list: its closing parenthesis. -/
def ClosesList (rest : List Token) : Prop :=
  ∃ closing after, isMark ')' closing = true ∧ rest = closing :: after

theorem endsPayload_cons_of_isMark {c : Char} {t : Token} {rest : List Token}
    (h : isMark c t = true) (heq : byte c ≠ byte '=')
    (hopen : byte c ≠ byte '(') :
    EndsPayload (t :: rest) :=
  ⟨stopsAt_cons.mpr (isMark_disjoint heq h),
    stopsAt_cons.mpr (isMark_disjoint hopen h)⟩

/-- What follows a term in a list cannot be its payload. -/
theorem TailTree.endsPayload (tail : TailTree) {rest : List Token}
    (hrest : ClosesList rest) :
    EndsPayload (tail.tokens ++ rest) := by
  obtain ⟨closing, after, hclosing, rfl⟩ := hrest
  cases tail with
  | done => exact endsPayload_cons_of_isMark hclosing (by decide) (by decide)
  | comma mark =>
      exact endsPayload_cons_of_isMark mark.2 (by decide) (by decide)
  | more mark next others =>
      exact endsPayload_cons_of_isMark mark.2 (by decide) (by decide)

def PayloadTree.shape : PayloadTree → Bool × Bool
  | .nothing => (false, false)
  | .equals _ _ => (true, false)
  | .parens _ _ _ => (false, true)

def ListTree.shape : ListTree → Bool
  | .empty => false
  | .terms _ _ => true

def TailTree.shape : TailTree → Bool × Bool
  | .done => (false, false)
  | .comma _ => (true, false)
  | .more _ _ _ => (true, true)

/-- The first token tells which kind of payload it is. -/
theorem PayloadTree.shape_eq (p : PayloadTree) {rest : List Token}
    (hrest : EndsPayload rest) :
    p.shape = ((p.tokens ++ rest).head?.any (isMark '='),
      (p.tokens ++ rest).head?.any (isMark '(')) := by
  cases p with
  | nothing =>
      cases rest with
      | nil => rfl
      | cons t rest =>
          simp [shape, tokens, stopsAt_cons.mp hrest.1, stopsAt_cons.mp hrest.2]
  | equals sign value =>
      have hopen := isMark_disjoint (d := '(') (by decide) sign.2
      simp [shape, tokens, sign.2, hopen]
  | parens opening inside closing =>
      have heq := isMark_disjoint (d := '=') (by decide) opening.2
      simp [shape, tokens, opening.2, heq]

theorem ListTree.shape_eq (l : ListTree) {rest : List Token}
    (hrest : ClosesList rest) :
    l.shape = (l.tokens ++ rest).head?.any isName := by
  obtain ⟨closing, after, hclosing, rfl⟩ := hrest
  cases l with
  | empty => simp [shape, tokens, isName_of_isMark hclosing]
  | terms first others =>
      obtain ⟨name, payload⟩ := first
      simp [shape, tokens, TermTree.tokens, name.2]

/-- Two tokens tell whether a list goes on, ends with a comma, or ends. -/
theorem TailTree.shape_eq (l : TailTree) {rest : List Token}
    (hrest : ClosesList rest) :
    l.shape = ((l.tokens ++ rest).head?.any (isMark ','),
      (l.tokens ++ rest).head?.any (isMark ',') &&
        (l.tokens ++ rest).tail.head?.any isName) := by
  obtain ⟨closing, after, hclosing, rfl⟩ := hrest
  cases l with
  | done =>
      simp [shape, tokens, isMark_disjoint (d := ',') (by decide) hclosing]
  | comma mark => simp [shape, tokens, mark.2, isName_of_isMark hclosing]
  | more mark next others =>
      obtain ⟨name, payload⟩ := next
      simp [shape, tokens, TermTree.tokens, mark.2, name.2]

mutual

/-- A term is known from its tokens, in front of anything that is no payload. -/
theorem TermTree.tokens_inj : ∀ (t t' : TermTree) {rest rest' : List Token},
    EndsPayload rest → EndsPayload rest' →
      t.tokens ++ rest = t'.tokens ++ rest' →
      t = t' ∧ rest = rest'
  | .node name payload, .node name' payload', rest, rest', hrest, hrest', h =>
      by
        simp only [TermTree.tokens, List.cons_append, List.cons.injEq] at h
        obtain ⟨rfl, hrests⟩ :=
          PayloadTree.tokens_inj payload payload' hrest hrest' h.2
        rw [Subtype.ext h.1]
        exact ⟨rfl, hrests⟩

theorem PayloadTree.tokens_inj (p p' : PayloadTree) {rest rest' : List Token}
    (hrest : EndsPayload rest) (hrest' : EndsPayload rest')
    (h : p.tokens ++ rest = p'.tokens ++ rest') : p = p' ∧ rest = rest' := by
  have hshape : p.shape = p'.shape := by
    rw [p.shape_eq hrest, p'.shape_eq hrest', h]
  match p, p' with
  | .nothing, .nothing => exact ⟨rfl, h⟩
  | .equals sign value, .equals sign' value' =>
      simp only [PayloadTree.tokens, List.cons_append, List.nil_append,
        List.cons.injEq] at h
      rw [Subtype.ext h.1, Subtype.ext h.2.1]
      exact ⟨rfl, h.2.2⟩
  | .parens opening inside closing, .parens opening' inside' closing' =>
      simp only [PayloadTree.tokens, List.cons_append, List.append_assoc,
        List.nil_append, List.cons.injEq] at h
      obtain ⟨rfl, hclosing⟩ :=
        ListTree.tokens_inj inside inside' ⟨_, _, closing.2, rfl⟩
        ⟨_, _, closing'.2, rfl⟩ h.2
      obtain ⟨hclosing, hrests⟩ := List.cons.inj hclosing
      rw [Subtype.ext h.1, Subtype.ext hclosing]
      exact ⟨rfl, hrests⟩
  | .nothing, .equals _ _ | .nothing, .parens _ _ _ | .equals _ _, .nothing
  | .equals _ _, .parens _ _ _ | .parens _ _ _, .nothing | .parens _ _ _,
    .equals _ _ =>
      simp [PayloadTree.shape] at hshape

theorem ListTree.tokens_inj (l l' : ListTree) {rest rest' : List Token}
    (hrest : ClosesList rest) (hrest' : ClosesList rest')
    (h : l.tokens ++ rest = l'.tokens ++ rest') : l = l' ∧ rest = rest' := by
  have hshape : l.shape = l'.shape := by
    rw [l.shape_eq hrest, l'.shape_eq hrest', h]
  match l, l' with
  | .empty, .empty => exact ⟨rfl, h⟩
  | .terms first others, .terms first' others' =>
      simp only [ListTree.tokens, List.append_assoc] at h
      obtain ⟨rfl, hothers⟩ :=
        TermTree.tokens_inj first first' (others.endsPayload hrest)
          (others'.endsPayload hrest') h
      obtain ⟨rfl, hrests⟩ :=
        TailTree.tokens_inj others others' hrest hrest' hothers
      exact ⟨rfl, hrests⟩
  | .empty, .terms _ _ | .terms _ _, .empty => simp [ListTree.shape] at hshape

theorem TailTree.tokens_inj (l l' : TailTree) {rest rest' : List Token}
    (hrest : ClosesList rest) (hrest' : ClosesList rest')
    (h : l.tokens ++ rest = l'.tokens ++ rest') : l = l' ∧ rest = rest' := by
  have hshape : l.shape = l'.shape := by
    rw [l.shape_eq hrest, l'.shape_eq hrest', h]
  match l, l' with
  | .done, .done => exact ⟨rfl, h⟩
  | .comma mark, .comma mark' =>
      obtain ⟨hmark, hrests⟩ := List.cons.inj h
      rw [Subtype.ext hmark]
      exact ⟨rfl, hrests⟩
  | .more mark next others, .more mark' next' others' =>
      simp only [TailTree.tokens, List.cons_append, List.append_assoc,
        List.cons.injEq] at h
      obtain ⟨rfl, hothers⟩ :=
        TermTree.tokens_inj next next' (others.endsPayload hrest)
          (others'.endsPayload hrest') h.2
      obtain ⟨rfl, hrests⟩ :=
        TailTree.tokens_inj others others' hrest hrest' hothers
      rw [Subtype.ext h.1]
      exact ⟨rfl, hrests⟩
  | .done, .comma _ | .done, .more _ _ _ | .comma _, .done | .comma _,
    .more _ _ _
  | .more _ _ _, .done | .more _ _ _, .comma _ =>
      simp [TailTree.shape] at hshape

end

/-- An attribute is known from its tokens, whatever follows: it ends with a
bracket. -/
theorem AttributeTree.tokens_inj (a a' : AttributeTree)
    {rest rest' : List Token} (h : a.tokens ++ rest = a'.tokens ++ rest') :
    a = a' ∧ rest = rest' := by
  obtain ⟨hash, opening, name, payload, closing⟩ := a
  obtain ⟨hash', opening', name', payload', closing'⟩ := a'
  simp only [AttributeTree.tokens, List.cons_append, List.append_assoc,
    List.nil_append, List.cons.injEq] at h
  obtain ⟨hhash, hopening, hname, hpayload⟩ := h
  obtain ⟨rfl, hclosing⟩ := PayloadTree.tokens_inj payload payload'
    (endsPayload_cons_of_isMark closing.2 (by decide) (by decide))
    (endsPayload_cons_of_isMark closing'.2 (by decide) (by decide)) hpayload
  obtain ⟨hclosing, hrests⟩ := List.cons.inj hclosing
  rw [Subtype.ext hhash, Subtype.ext hopening, Subtype.ext hname,
    Subtype.ext hclosing]
  exact ⟨rfl, hrests⟩

/-- Repetition is unambiguous when a tree is determined by its tokens before
what may follow it, and what ends the repetition cannot begin another tree. -/
theorem flatMap_tokens_inj {T : Type} {tokens : T → List Token}
    (Follows Ends : List Token → Prop)
    (hinj : ∀ t t' {rest rest' : List Token}, Follows rest → Follows rest' →
      tokens t ++ rest = tokens t' ++ rest' → t = t' ∧ rest = rest')
    (hfollows : ∀ (ts : List T) {rest : List Token}, Ends rest →
      Follows (ts.flatMap tokens ++ rest))
    (hends : ∀ t (rest : List Token), ¬ Ends (tokens t ++ rest))
    (ts ts' : List T) {rest rest' : List Token} (hrest : Ends rest)
    (hrest' : Ends rest')
    (h : ts.flatMap tokens ++ rest = ts'.flatMap tokens ++ rest') :
    ts = ts' ∧ rest = rest' := by
  induction ts generalizing ts' with
  | nil =>
      cases ts' with
      | nil => exact ⟨rfl, h⟩
      | cons t' ts' =>
          rw [List.flatMap_nil, List.nil_append, List.flatMap_cons,
            List.append_assoc] at h
          rw [h] at hrest
          exact absurd hrest (hends t' _)
  | cons t ts ih =>
      cases ts' with
      | nil =>
          rw [List.flatMap_nil, List.nil_append, List.flatMap_cons,
            List.append_assoc] at h
          rw [← h] at hrest'
          exact absurd hrest' (hends t _)
      | cons t' ts' =>
          simp only [List.flatMap_cons, List.append_assoc] at h
          obtain ⟨rfl, htail⟩ :=
            hinj t t' (hfollows ts hrest) (hfollows ts' hrest') h
          obtain ⟨rfl, hrests⟩ := ih ts' htail
          exact ⟨rfl, hrests⟩

theorem AttributeTree.flatMap_inj {as as' : List AttributeTree}
    {rest rest' : List Token} (hrest : StopsAt (isMark '#') rest)
    (hrest' : StopsAt (isMark '#') rest')
    (h : as.flatMap AttributeTree.tokens ++ rest =
      as'.flatMap AttributeTree.tokens ++ rest') :
    as = as' ∧ rest = rest' := by
  refine flatMap_tokens_inj (fun _ => True) (StopsAt (isMark '#')) ?_ ?_ ?_ as
    as' hrest hrest' h
  · intro a a' _ _ _ _ h
    exact AttributeTree.tokens_inj a a' h
  · intro _ _ _
    trivial
  · intro a rest hends
    have := stopsAt_cons.mp hends
    simp [a.hash.2] at this

/-- An item is known from its tokens, in front of anything but a semicolon. -/
theorem ItemTree.tokens_inj (i i' : ItemTree) {rest rest' : List Token}
    (hrest : StopsAt (isMark ';') rest) (hrest' : StopsAt (isMark ';') rest')
    (h : i.tokens ++ rest = i'.tokens ++ rest') : i = i' ∧ rest = rest' := by
  obtain ⟨attrs, kind, name, semicolon⟩ := i
  obtain ⟨attrs', kind', name', semicolon'⟩ := i'
  simp only [ItemTree.tokens, List.append_assoc, List.cons_append] at h
  obtain ⟨rfl, hheader⟩ := AttributeTree.flatMap_inj
    (stopsAt_cons.mpr (isMark_of_isName kind.2 '#'))
    (stopsAt_cons.mpr (isMark_of_isName kind'.2 '#')) h
  simp only [List.cons.injEq] at hheader
  obtain ⟨hkind, hname, hrests⟩ := hheader
  rw [Subtype.ext hkind, Subtype.ext hname]
  match semicolon, semicolon' with
  | none, none => exact ⟨rfl, hrests⟩
  | some mark, some mark' =>
      obtain ⟨hmark, hrests⟩ := List.cons.inj hrests
      rw [Subtype.ext hmark]
      exact ⟨rfl, hrests⟩
  | none, some mark =>
      have := hrest mark.1 (congrArg List.head? hrests)
      simp [mark.2] at this
  | some mark, none =>
      have := hrest' mark.1 (congrArg List.head? hrests.symm)
      simp [mark.2] at this

theorem ItemTree.tokens_ne_nil (i : ItemTree) : i.tokens ≠ [] := by
  simp [ItemTree.tokens]

theorem ItemTree.stopsAt_semicolon (is : List ItemTree) :
    StopsAt (isMark ';') (is.flatMap ItemTree.tokens) := by
  cases is with
  | nil => exact stopsAt_nil _
  | cons i is =>
      obtain ⟨attrs, kind, name, semicolon⟩ := i
      cases attrs with
      | nil => exact stopsAt_cons.mpr (isMark_of_isName kind.2 ';')
      | cons a as =>
          exact stopsAt_cons.mpr (isMark_disjoint (by decide) a.hash.2)

theorem ItemTree.flatMap_inj {is is' : List ItemTree}
    (h : is.flatMap ItemTree.tokens = is'.flatMap ItemTree.tokens) :
    is = is' := by
  have hnil : is.flatMap ItemTree.tokens ++ [] =
      is'.flatMap ItemTree.tokens ++ [] := by rw [h]
  refine (flatMap_tokens_inj (StopsAt (isMark ';')) (· = [])
    ItemTree.tokens_inj ?_ ?_ is is' rfl rfl hnil).1
  · rintro is rest rfl
    rw [List.append_nil]
    exact ItemTree.stopsAt_semicolon is
  · intro i rest hnil
    exact i.tokens_ne_nil (List.append_eq_nil_iff.mp hnil).1

end Grammar

end FeatureGate
