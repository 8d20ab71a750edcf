import Mathlib
import FeatureGate.Proofs.Acceptance
import FeatureGate.Proofs.Rendering

/-!
Derivations do not look at places. Tokens with the lexemes of a derivation's
leaves are the leaves of another derivation, whose value differs in its spans
only. So two sources whose tokens have the same lexemes, layout left out, are
accepted together.
-/

namespace FeatureGate

def Item.unplaced (i : Item) : Item :=
  { i with attrs := i.attrs.map Attribute.unplaced, span := {} }

namespace Grammar

theorem isName_of_lexeme (leaf : Leaf isName) {t : Token}
    (h : t.lexeme = leaf.1.lexeme) :
    isName t = true := by
  have hkind : t.kind = leaf.1.kind := congrArg Lexeme.kind h
  rw [isName, hkind]
  exact leaf.2

theorem isString_of_lexeme (leaf : Leaf isString) {t : Token}
    (h : t.lexeme = leaf.1.lexeme) :
    isString t = true := by
  have hkind : t.kind = leaf.1.kind := congrArg Lexeme.kind h
  rw [isString, hkind]
  exact leaf.2

theorem isMark_of_lexeme {c : Char} (leaf : Leaf (isMark c)) {t : Token}
    (h : t.lexeme = leaf.1.lexeme) : isMark c t = true := by
  have hkind : t.kind = leaf.1.kind := congrArg Lexeme.kind h
  have htext : t.text = leaf.1.text := congrArg Lexeme.text h
  rw [isMark, hkind, htext]
  exact leaf.2

mutual

/-- A derivation can be carried over to tokens with the same lexemes. -/
theorem TermTree.exists_of_lexemes : ∀ (tree : TermTree) {tokens : List Token},
    tokens.map Token.lexeme = tree.tokens.map Token.lexeme →
      ∃ tree' : TermTree, tree'.tokens = tokens ∧ tree'.value = tree.value
  | .node name payload, tokens, h => by
      obtain ⟨t, rest, rfl, ht, hrest⟩ := List.map_eq_cons_iff.mp h
      obtain ⟨payload', htokens, hvalue⟩ := payload.exists_of_lexemes hrest
      have htext : t.text = name.1.text := congrArg Lexeme.text ht
      refine ⟨.node ⟨t, isName_of_lexeme name ht⟩ payload', ?_, ?_⟩
      · rw [TermTree.tokens, htokens]
      · rw [TermTree.value, TermTree.value, hvalue, htext]

theorem PayloadTree.exists_of_lexemes :
    ∀ (p : PayloadTree) {tokens : List Token},
    tokens.map Token.lexeme = p.tokens.map Token.lexeme →
      ∃ p' : PayloadTree, p'.tokens = tokens ∧ p'.value = p.value
  | .nothing, tokens, h => by
      rw [List.map_eq_nil_iff.mp h]
      exact ⟨.nothing, rfl, rfl⟩
  | .equals sign value, tokens, h => by
      obtain ⟨t, rest, rfl, ht, hrest⟩ := List.map_eq_cons_iff.mp h
      obtain ⟨t', rest, rfl, ht', hrest⟩ := List.map_eq_cons_iff.mp hrest
      obtain rfl := List.map_eq_nil_iff.mp hrest
      have htext : t'.text = value.1.text := congrArg Lexeme.text ht'
      refine ⟨.equals ⟨t, isMark_of_lexeme sign ht⟩
        ⟨t', isString_of_lexeme value ht'⟩, rfl, ?_⟩
      rw [PayloadTree.value, PayloadTree.value, htext]
  | .parens opening inside closing, tokens, h => by
      rw [PayloadTree.tokens, List.cons_append, List.map_cons,
        List.map_append] at h
      obtain ⟨t, rest, rfl, ht, hrest⟩ := List.map_eq_cons_iff.mp h
      obtain ⟨middle, last, rfl, hmiddle, hlast⟩ :=
        List.map_eq_append_iff.mp hrest
      obtain ⟨t', rest, rfl, ht', hrest⟩ := List.map_eq_cons_iff.mp hlast
      obtain rfl := List.map_eq_nil_iff.mp hrest
      obtain ⟨inside', htokens, hvalues⟩ := inside.exists_of_lexemes hmiddle
      refine ⟨.parens ⟨t, isMark_of_lexeme opening ht⟩ inside'
        ⟨t', isMark_of_lexeme closing ht'⟩, ?_, ?_⟩
      · rw [PayloadTree.tokens, htokens]
        rfl
      · rw [PayloadTree.value, PayloadTree.value, hvalues]

theorem ListTree.exists_of_lexemes : ∀ (l : ListTree) {tokens : List Token},
    tokens.map Token.lexeme = l.tokens.map Token.lexeme →
      ∃ l' : ListTree, l'.tokens = tokens ∧ l'.values = l.values
  | .empty, tokens, h => by
      rw [List.map_eq_nil_iff.mp h]
      exact ⟨.empty, rfl, rfl⟩
  | .terms first others, tokens, h => by
      rw [ListTree.tokens, List.map_append] at h
      obtain ⟨front, back, rfl, hfront, hback⟩ := List.map_eq_append_iff.mp h
      obtain ⟨first', htokens, hvalue⟩ := first.exists_of_lexemes hfront
      obtain ⟨others', htokens', hvalues⟩ := others.exists_of_lexemes hback
      refine ⟨.terms first' others', ?_, ?_⟩
      · rw [ListTree.tokens, htokens, htokens']
      · rw [ListTree.values, ListTree.values, hvalue, hvalues]

theorem TailTree.exists_of_lexemes : ∀ (tail : TailTree) {tokens : List Token},
    tokens.map Token.lexeme = tail.tokens.map Token.lexeme →
      ∃ tail' : TailTree, tail'.tokens = tokens ∧ tail'.values = tail.values
  | .done, tokens, h => by
      rw [List.map_eq_nil_iff.mp h]
      exact ⟨.done, rfl, rfl⟩
  | .comma mark, tokens, h => by
      obtain ⟨t, rest, rfl, ht, hrest⟩ := List.map_eq_cons_iff.mp h
      obtain rfl := List.map_eq_nil_iff.mp hrest
      exact ⟨.comma ⟨t, isMark_of_lexeme mark ht⟩, rfl, rfl⟩
  | .more mark next others, tokens, h => by
      rw [TailTree.tokens, List.cons_append, List.map_cons,
        List.map_append] at h
      obtain ⟨t, rest, rfl, ht, hrest⟩ := List.map_eq_cons_iff.mp h
      obtain ⟨front, back, rfl, hfront, hback⟩ :=
        List.map_eq_append_iff.mp hrest
      obtain ⟨next', htokens, hvalue⟩ := next.exists_of_lexemes hfront
      obtain ⟨others', htokens', hvalues⟩ := others.exists_of_lexemes hback
      refine ⟨.more ⟨t, isMark_of_lexeme mark ht⟩ next' others', ?_, ?_⟩
      · rw [TailTree.tokens, htokens, htokens']
        rfl
      · rw [TailTree.values, TailTree.values, hvalue, hvalues]

end

theorem AttributeTree.exists_of_lexemes (tree : AttributeTree)
    {tokens : List Token}
    (h : tokens.map Token.lexeme = tree.tokens.map Token.lexeme) :
    ∃ tree' : AttributeTree, tree'.tokens = tokens
      ∧ tree'.value.unplaced = tree.value.unplaced := by
  simp only [AttributeTree.tokens, List.map_cons, List.map_append] at h
  obtain ⟨hash, rest, rfl, hhash, h⟩ := List.map_eq_cons_iff.mp h
  obtain ⟨opening, rest, rfl, hopening, h⟩ := List.map_eq_cons_iff.mp h
  obtain ⟨name, rest, rfl, hname, h⟩ := List.map_eq_cons_iff.mp h
  obtain ⟨inside, last, rfl, hinside, h⟩ := List.map_eq_append_iff.mp h
  obtain ⟨closing, rest, rfl, hclosing, h⟩ := List.map_eq_cons_iff.mp h
  obtain rfl := List.map_eq_nil_iff.mp h
  obtain ⟨payload, htokens, hvalue⟩ := tree.payload.exists_of_lexemes hinside
  have htext : name.text = tree.name.1.text := congrArg Lexeme.text hname
  refine ⟨⟨⟨hash, isMark_of_lexeme tree.hash hhash⟩,
    ⟨opening, isMark_of_lexeme _ hopening⟩, ⟨name, isName_of_lexeme _ hname⟩,
    payload, ⟨closing, isMark_of_lexeme _ hclosing⟩⟩, ?_, ?_⟩
  · rw [AttributeTree.tokens, htokens]
  · simp [AttributeTree.value, Attribute.unplaced, htext, hvalue]

/-- What holds of one derivation holds of a repeated rule: up to `shape`, tokens
with the same lexemes have derivations with the same values. -/
theorem exists_trees_of_lexemes {T α β : Type} {leaves : T → List Token}
    {value : T → α}
    (shape : α → β)
    (hone : ∀ (tree : T) {tokens : List Token},
      tokens.map Token.lexeme = (leaves tree).map Token.lexeme →
        ∃ tree', leaves tree' = tokens ∧ shape (value tree') = shape
        (value tree))
    (trees : List T) {tokens : List Token}
    (h : tokens.map Token.lexeme = (trees.flatMap leaves).map Token.lexeme) :
    ∃ trees' : List T, trees'.flatMap leaves = tokens
      ∧ (trees'.map value).map shape = (trees.map value).map shape := by
  induction trees generalizing tokens with
  | nil =>
      rw [List.map_eq_nil_iff.mp h]
      exact ⟨[], rfl, rfl⟩
  | cons tree trees ih =>
      rw [List.flatMap_cons, List.map_append] at h
      obtain ⟨front, back, rfl, hfront, hback⟩ := List.map_eq_append_iff.mp h
      obtain ⟨tree', htokens, hvalue⟩ := hone tree hfront
      obtain ⟨trees', htokens', hvalues⟩ := ih hback
      refine ⟨tree' :: trees', ?_, ?_⟩
      · rw [List.flatMap_cons, htokens, htokens']
      · rw [List.map_cons, List.map_cons, List.map_cons, List.map_cons,
          hvalue, hvalues]

theorem exists_optional_of_lexemes {c : Char} (leaf : Option (Leaf (isMark c)))
    {tokens : List Token}
    (h : tokens.map Token.lexeme = (leaf.map Subtype.val).toList.map
      Token.lexeme) :
    ∃ leaf' : Option (Leaf (isMark c)),
      (leaf'.map Subtype.val).toList = tokens := by
  cases leaf with
  | none =>
      rw [List.map_eq_nil_iff.mp h]
      exact ⟨none, rfl⟩
  | some mark =>
      obtain ⟨t, rest, rfl, ht, hrest⟩ := List.map_eq_cons_iff.mp h
      rw [List.map_eq_nil_iff.mp hrest]
      exact ⟨some ⟨t, isMark_of_lexeme mark ht⟩, rfl⟩

/-- An item can be carried over to tokens with the same lexemes; only its span
differs. -/
theorem ItemTree.exists_of_lexemes (tree : ItemTree) {tokens : List Token}
    (h : tokens.map Token.lexeme = tree.tokens.map Token.lexeme) :
    ∃ tree' : ItemTree, tree'.tokens = tokens ∧
      tree'.value.unplaced = tree.value.unplaced := by
  simp only [ItemTree.tokens, List.map_append, List.map_cons] at h
  obtain ⟨front, header, rfl, hfront, h⟩ := List.map_eq_append_iff.mp h
  obtain ⟨kind, rest, rfl, hkind, h⟩ := List.map_eq_cons_iff.mp h
  obtain ⟨name, rest, rfl, hname, h⟩ := List.map_eq_cons_iff.mp h
  obtain ⟨attrs, htokens, hvalues⟩ := exists_trees_of_lexemes Attribute.unplaced
    AttributeTree.exists_of_lexemes tree.attrs hfront
  obtain ⟨semicolon, rfl⟩ := exists_optional_of_lexemes tree.semicolon h
  have hkinds : kind.text = tree.kind.1.text := congrArg Lexeme.text hkind
  have hnames : name.text = tree.name.1.text := congrArg Lexeme.text hname
  refine ⟨⟨attrs, ⟨kind, isName_of_lexeme _ hkind⟩,
    ⟨name, isName_of_lexeme _ hname⟩, semicolon⟩, ?_, ?_⟩
  · rw [ItemTree.tokens, htokens]
  · simp only [ItemTree.value, Item.unplaced, hkinds, hnames, hvalues]

/-- Of two inputs with the same lexemes, the second is accepted when the first
is, and up to `shape` the results are the same. -/
theorem Follows.of_lexemes {T α β : Type} {leaves : T → List Token}
    {value : T → α}
    {input input' : List Token} {result result' : Except SyntaxError (List α)}
    (shape : α → β)
    (hone : ∀ (tree : T) {tokens : List Token},
      tokens.map Token.lexeme = (leaves tree).map Token.lexeme →
        ∃ tree', leaves tree' = tokens ∧ shape (value tree') = shape
        (value tree))
    (h : Follows leaves value input result)
    (h' : Follows leaves value input' result')
    (hlexemes : input'.map Token.lexeme = input.map Token.lexeme)
    {values : List α}
    (hvalues : result = .ok values) :
    ∃ values', result' = .ok values' ∧
      values'.map shape = values.map shape := by
  obtain ⟨trees, rfl⟩ := h.succeeds_iff.mp ⟨values, hvalues⟩
  have hresult := h.result_eq trees rfl
  rw [hvalues, Except.ok.injEq] at hresult
  obtain ⟨trees', htokens, hshapes⟩ :=
    exists_trees_of_lexemes shape hone trees hlexemes
  refine ⟨trees'.map value, h'.result_eq trees' htokens, ?_⟩
  rw [hshapes, hresult]

end Grammar

end FeatureGate
