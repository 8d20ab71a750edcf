import Mathlib
import FeatureGate.Proofs.Acceptance
import FeatureGate.Proofs.Rendering

/-!
Rendering and parsing again. Tokens with the lexemes of a rendered attribute are
the leaves of a derivation of that attribute. Everything a parser returns has
identifiers for names, so it can always be rendered and parsed again.
-/

namespace FeatureGate

namespace Grammar

theorem meaningful_append (ts us : List Token) :
    meaningful (ts ++ us) = meaningful ts ++ meaningful us :=
  List.filter_append ..

theorem meaningful_cons_of_not_layout {t : Token}
    (h : t.lexeme.isLayout = false) (ts : List Token) :
    meaningful (t :: ts) = t :: meaningful ts := by
  have hlayout : t.isLayout = false := h
  simp [meaningful, hlayout]

theorem meaningful_cons_of_layout {t : Token} (h : t.lexeme.isLayout = true)
    (ts : List Token) :
    meaningful (t :: ts) = meaningful ts := by
  have hlayout : t.isLayout = true := h
  simp [meaningful, hlayout]

theorem leaf_of_mark {c : Char} {t : Token} {l : List Token}
    (h : t.lexeme = .mark c) :
    isMark c t = true ∧ meaningful (t :: l) = t :: meaningful l := by
  refine ⟨?_, meaningful_cons_of_not_layout (by rw [h]; rfl) l⟩
  simp only [Token.lexeme, Lexeme.mark, Lexeme.mk.injEq] at h
  simp [isMark, h]

theorem leaf_of_name {name : Bytes} {t : Token} {l : List Token}
    (h : t.lexeme = .name name) :
    isName t = true ∧ t.text = name ∧
      meaningful (t :: l) = t :: meaningful l := by
  refine ⟨?_, congrArg Lexeme.text h,
    meaningful_cons_of_not_layout (by rw [h]; rfl) l⟩
  simp only [Token.lexeme, Lexeme.name, Lexeme.mk.injEq] at h
  simp [isName, h]

theorem leaf_of_quoted {value : Bytes} {t : Token} {l : List Token}
    (h : t.lexeme = .quoted value) :
    isString t = true ∧ t.text = quote value ∧
      meaningful (t :: l) = t :: meaningful l := by
  refine ⟨?_, congrArg Lexeme.text h,
    meaningful_cons_of_not_layout (by rw [h]; rfl) l⟩
  simp only [Token.lexeme, Lexeme.quoted, Lexeme.mk.injEq] at h
  simp [isString, h]

theorem meaningful_blank {t : Token} {l : List Token} (h : t.lexeme = .blank) :
    meaningful (t :: l) = meaningful l :=
  meaningful_cons_of_layout (by rw [h]; rfl) l

/-- Blank text leaves nothing behind. -/
theorem meaningful_gap {text : Bytes} {tokens : List Token}
    (h : tokens.map Token.lexeme = Lexeme.gap text) :
    meaningful tokens = [] := by
  cases text with
  | nil =>
      rw [List.map_eq_nil_iff.mp h]
      rfl
  | cons b text =>
      obtain ⟨t, rest, rfl, ht, hrest⟩ := List.map_eq_cons_iff.mp h
      rw [List.map_eq_nil_iff.mp hrest]
      exact meaningful_cons_of_layout (by rw [ht]; rfl) []

theorem exists_equals {value : Bytes} {tokens : List Token}
    (h : tokens.map Token.lexeme = Lexeme.equals value) :
    ∃ p : PayloadTree, p.tokens = meaningful tokens ∧ p.value = .eq value := by
  obtain ⟨blank, rest, rfl, hblank, h⟩ := List.map_eq_cons_iff.mp h
  obtain ⟨sign, rest, rfl, hsign, h⟩ := List.map_eq_cons_iff.mp h
  obtain ⟨blank', rest, rfl, hblank', h⟩ := List.map_eq_cons_iff.mp h
  obtain ⟨string, rest, rfl, hstring, h⟩ := List.map_eq_cons_iff.mp h
  obtain rfl := List.map_eq_nil_iff.mp h
  obtain ⟨hmark, hsigns⟩ := leaf_of_mark (l := [blank', string]) hsign
  obtain ⟨hvalue, htext, hstrings⟩ := leaf_of_quoted (l := []) hstring
  refine ⟨.equals ⟨sign, hmark⟩ ⟨string, hvalue⟩, ?_, ?_⟩
  · rw [meaningful_blank hblank, hsigns, meaningful_blank hblank', hstrings]
    rfl
  · rw [PayloadTree.value, htext, unquote?_quote]
    rfl

theorem exists_parens {ts : List Term} {tokens : List Token}
    (hinside : ∀ tokens : List Token,
      tokens.map Token.lexeme = Term.listLexemes ts →
      ∃ l : ListTree, l.tokens = meaningful tokens ∧ l.values = ts)
    (h : tokens.map Token.lexeme = Lexeme.parens (Term.listLexemes ts)) :
    ∃ p : PayloadTree, p.tokens = meaningful tokens ∧ p.value = .paren ts := by
  obtain ⟨opening, rest, rfl, hopening, h⟩ := List.map_eq_cons_iff.mp h
  obtain ⟨inside, last, rfl, hlist, h⟩ := List.map_eq_append_iff.mp h
  obtain ⟨closing, rest, rfl, hclosing, h⟩ := List.map_eq_cons_iff.mp h
  obtain rfl := List.map_eq_nil_iff.mp h
  obtain ⟨hopen, hopens⟩ := leaf_of_mark (l := inside ++ [closing]) hopening
  obtain ⟨hclose, hcloses⟩ := leaf_of_mark (l := []) hclosing
  obtain ⟨tree, htokens, hvalues⟩ := hinside inside hlist
  refine ⟨.parens ⟨opening, hopen⟩ tree ⟨closing, hclose⟩, ?_, ?_⟩
  · rw [hopens, meaningful_append, hcloses, PayloadTree.tokens, htokens]
    rfl
  · rw [PayloadTree.value, hvalues]

theorem exists_tail {ts : List Term}
    (hts : ∀ t ∈ ts, ∀ tokens : List Token,
      tokens.map Token.lexeme = t.lexemes →
      ∃ tree : TermTree, tree.tokens = meaningful tokens ∧ tree.value = t)
    {tokens : List Token} (h : tokens.map Token.lexeme = Term.tailLexemes ts) :
    ∃ tail : TailTree, tail.tokens = meaningful tokens ∧ tail.values = ts := by
  induction ts generalizing tokens with
  | nil =>
      rw [List.map_eq_nil_iff.mp h]
      exact ⟨.done, rfl, rfl⟩
  | cons t ts ih =>
      rw [List.forall_mem_cons] at hts
      obtain ⟨mark, rest, rfl, hmark, h⟩ := List.map_eq_cons_iff.mp h
      obtain ⟨blank, rest, rfl, hblank, h⟩ := List.map_eq_cons_iff.mp h
      obtain ⟨first, others, rfl, hfirst, hothers⟩ :=
        List.map_eq_append_iff.mp h
      obtain ⟨hcomma, hcommas⟩ :=
        leaf_of_mark (l := blank :: (first ++ others)) hmark
      obtain ⟨tree, htokens, hvalue⟩ := hts.1 first hfirst
      obtain ⟨tail, htail, hvalues⟩ := ih hts.2 hothers
      refine ⟨.more ⟨mark, hcomma⟩ tree tail, ?_, ?_⟩
      · rw [hcommas, meaningful_blank hblank, meaningful_append,
          TailTree.tokens, htokens, htail]
        rfl
      · rw [TailTree.values, hvalue, hvalues]

theorem exists_list {ts : List Term}
    (hts : ∀ t ∈ ts, ∀ tokens : List Token,
      tokens.map Token.lexeme = t.lexemes →
      ∃ tree : TermTree, tree.tokens = meaningful tokens ∧ tree.value = t)
    (tokens : List Token) (h : tokens.map Token.lexeme = Term.listLexemes ts) :
    ∃ l : ListTree, l.tokens = meaningful tokens ∧ l.values = ts := by
  cases ts with
  | nil =>
      rw [List.map_eq_nil_iff.mp h]
      exact ⟨.empty, rfl, rfl⟩
  | cons t ts =>
      rw [List.forall_mem_cons] at hts
      obtain ⟨first, others, rfl, hfirst, hothers⟩ :=
        List.map_eq_append_iff.mp h
      obtain ⟨tree, htokens, hvalue⟩ := hts.1 first hfirst
      obtain ⟨tail, htail, hvalues⟩ := exists_tail hts.2 hothers
      refine ⟨.terms tree tail, ?_, ?_⟩
      · rw [meaningful_append, ListTree.tokens, htokens, htail]
      · rw [ListTree.values, hvalue, hvalues]

theorem exists_node {name : Bytes} {t : Token} {rest : List Token} {args : Args}
    (ht : t.lexeme = .name name)
    (hp : ∃ p : PayloadTree, p.tokens = meaningful rest ∧ p.value = args) :
    ∃ tree : TermTree, tree.tokens = meaningful (t :: rest)
      ∧ tree.value = termOf name (some args) := by
  obtain ⟨p, htokens, hvalue⟩ := hp
  obtain ⟨hname, htext, hnames⟩ := leaf_of_name (l := rest) ht
  refine ⟨.node ⟨t, hname⟩ p, ?_, ?_⟩
  · rw [hnames, TermTree.tokens, htokens]
  · rw [← htext]
    exact TermTree.value_node ⟨t, hname⟩ p hvalue

/-- Tokens with the lexemes of a readable term are the leaves of a derivation of
it. -/
theorem exists_term {t : Term} (hreadable : t.isReadable = true)
    {tokens : List Token} (h : tokens.map Token.lexeme = t.lexemes) :
    ∃ tree : TermTree, tree.tokens = meaningful tokens ∧ tree.value = t := by
  induction t generalizing tokens with
  | ident name =>
      obtain ⟨first, rest, rfl, hname, hrest⟩ := List.map_eq_cons_iff.mp h
      obtain rfl := List.map_eq_nil_iff.mp hrest
      exact exists_node hname ⟨.nothing, rfl, rfl⟩
  | keyValue key value =>
      obtain ⟨first, rest, rfl, hname, hrest⟩ := List.map_eq_cons_iff.mp h
      exact exists_node hname (exists_equals hrest)
  | call name args ih =>
      simp only [Term.isReadable, Bool.and_eq_true,
        Term.allReadable_iff] at hreadable
      obtain ⟨first, rest, rfl, hname, hrest⟩ := List.map_eq_cons_iff.mp h
      have hinside := exists_list fun t ht tokens => ih t ht (hreadable.2 t ht)
      exact exists_node hname (exists_parens hinside hrest)
  | hole => simp [Term.isReadable] at hreadable

theorem exists_payload {args : Args} (hreadable : args.isReadable = true)
    {tokens : List Token} (h : tokens.map Token.lexeme = args.lexemes) :
    ∃ p : PayloadTree, p.tokens = meaningful tokens ∧ p.value = args := by
  cases args with
  | none =>
      rw [List.map_eq_nil_iff.mp h]
      exact ⟨.nothing, rfl, rfl⟩
  | eq value => exact exists_equals h
  | paren terms =>
      have hterms := Term.allReadable_iff.mp hreadable
      exact exists_parens (exists_list fun t ht _ =>
        exists_term (hterms t ht)) h

/-- Tokens with the lexemes of a readable attribute are the leaves of a
derivation of it, up to its span. -/
theorem exists_attribute {a : Attribute} (hreadable : a.isReadable = true)
    {tokens : List Token} (h : tokens.map Token.lexeme = a.lexemes) :
    ∃ tree : AttributeTree, tree.tokens = meaningful tokens
      ∧ tree.value.unplaced = a.unplaced := by
  simp only [Attribute.isReadable, Bool.and_eq_true] at hreadable
  obtain ⟨hash, rest, rfl, hhash, h⟩ := List.map_eq_cons_iff.mp h
  obtain ⟨opening, rest, rfl, hopening, h⟩ := List.map_eq_cons_iff.mp h
  obtain ⟨name, rest, rfl, hname, h⟩ := List.map_eq_cons_iff.mp h
  obtain ⟨inside, last, rfl, hinside, h⟩ := List.map_eq_append_iff.mp h
  obtain ⟨closing, rest, rfl, hclosing, h⟩ := List.map_eq_cons_iff.mp h
  obtain rfl := List.map_eq_nil_iff.mp h
  obtain ⟨hhash, hhashes⟩ :=
    leaf_of_mark (l := opening :: name :: (inside ++ [closing])) hhash
  obtain ⟨hopen, hopens⟩ :=
    leaf_of_mark (l := name :: (inside ++ [closing])) hopening
  obtain ⟨hname, htext, hnames⟩ := leaf_of_name (l := inside ++ [closing]) hname
  obtain ⟨hclose, hcloses⟩ := leaf_of_mark (l := []) hclosing
  obtain ⟨p, htokens, hvalue⟩ := exists_payload hreadable.2 hinside
  refine ⟨⟨⟨hash, hhash⟩, ⟨opening, hopen⟩, ⟨name, hname⟩, p,
    ⟨closing, hclose⟩⟩, ?_, ?_⟩
  · rw [hhashes, hopens, hnames, meaningful_append, hcloses,
      AttributeTree.tokens, htokens]
    rfl
  · simp [AttributeTree.value, Attribute.unplaced, htext, hvalue]

end Grammar

/-- The source of the attributes, each behind its gap, up to the trailing
text. -/
def Attribute.renderAll (pieces : List (Bytes × Attribute))
    (trailing : Bytes) : Bytes :=
  pieces.flatMap (fun piece => piece.1 ++ piece.2.render) ++ trailing

namespace Attribute

/-- Gaps are blank, or empty, and attributes can be read. -/
def isWritable (piece : Bytes × Attribute) : Bool :=
  piece.1.all Token.isSpace && piece.2.isReadable

theorem isWritable_iff {piece : Bytes × Attribute} :
    isWritable piece = true ↔
      (∀ b ∈ piece.1, Token.isSpace b = true) ∧ piece.2.isReadable = true := by
  simp [isWritable]

def pieceLexemes (piece : Bytes × Attribute) : List Lexeme :=
  Lexeme.gap piece.1 ++ piece.2.lexemes

theorem texts_flatMap_pieceLexemes {pieces : List (Bytes × Attribute)}
    (h : ∀ piece ∈ pieces, isWritable piece = true) :
    (pieces.flatMap pieceLexemes).flatMap Lexeme.text
      = pieces.flatMap fun piece => piece.1 ++ piece.2.render := by
  induction pieces with
  | nil => rfl
  | cons piece pieces ih =>
      rw [List.forall_mem_cons] at h
      have hreadable := (isWritable_iff.mp h.1).2
      rw [List.flatMap_cons, List.flatMap_cons, List.flatMap_append,
        ih h.2, pieceLexemes, List.flatMap_append, Lexeme.texts_gap,
        render_eq_texts hreadable]

/-- Attributes with blank text between them stay apart. -/
theorem separated_flatMap_pieceLexemes {pieces : List (Bytes × Attribute)}
    {rest : Bytes} (h : ∀ piece ∈ pieces, isWritable piece = true) :
    Lexeme.Separated rest (pieces.flatMap pieceLexemes) := by
  induction pieces with
  | nil => trivial
  | cons piece pieces ih =>
      rw [List.forall_mem_cons] at h
      have hpiece := isWritable_iff.mp h.1
      rw [List.flatMap_cons, Lexeme.separated_append, pieceLexemes,
        Lexeme.separated_append]
      refine ⟨⟨Lexeme.separated_gap hpiece.1 ?_, separated_lexemes hpiece.2 _⟩,
        ih h.2⟩
      exact stopsAt_cons.mpr (by decide)

theorem exists_attributes {pieces : List (Bytes × Attribute)}
    (hpieces : ∀ piece ∈ pieces, isWritable piece = true) {tokens : List Token}
    (h : tokens.map Token.lexeme = pieces.flatMap pieceLexemes) :
    ∃ trees : List Grammar.AttributeTree,
      trees.flatMap Grammar.AttributeTree.tokens = Grammar.meaningful tokens
        ∧ (trees.map Grammar.AttributeTree.value).map unplaced
          = pieces.map fun piece => piece.2.unplaced := by
  induction pieces generalizing tokens with
  | nil =>
      rw [List.map_eq_nil_iff.mp h]
      exact ⟨[], rfl, rfl⟩
  | cons piece pieces ih =>
      rw [List.forall_mem_cons] at hpieces
      have hreadable := (isWritable_iff.mp hpieces.1).2
      rw [List.flatMap_cons, pieceLexemes] at h
      obtain ⟨first, others, rfl, hfirst, hothers⟩ :=
        List.map_eq_append_iff.mp h
      obtain ⟨gap, own, rfl, hgap, hown⟩ := List.map_eq_append_iff.mp hfirst
      obtain ⟨tree, htokens, hvalue⟩ := Grammar.exists_attribute hreadable hown
      obtain ⟨trees, htrees, hvalues⟩ := ih hpieces.2 hothers
      refine ⟨tree :: trees, ?_, ?_⟩
      · rw [Grammar.meaningful_append, Grammar.meaningful_append,
          Grammar.meaningful_gap hgap, List.flatMap_cons, htokens, htrees]
        rfl
      · simp [hvalue, ← hvalues]

/-- Rendered attributes are read back, whatever blank text is put between
them. -/
theorem parseAttributes_renderAll {pieces : List (Bytes × Attribute)}
    {trailing : Bytes} (hpieces : ∀ piece ∈ pieces, isWritable piece = true)
    (htrailing : trailing.all Token.isSpace = true) :
    ∃ attrs, parseAttributes (renderAll pieces trailing) = .ok attrs
      ∧ attrs.map unplaced = pieces.map fun piece => piece.2.unplaced := by
  have hseparated : Lexeme.Separated []
      (pieces.flatMap pieceLexemes ++ Lexeme.gap trailing) := by
    rw [Lexeme.separated_append]
    refine ⟨separated_flatMap_pieceLexemes hpieces,
      Lexeme.separated_gap ?_ (stopsAt_nil _)⟩
    exact List.all_eq_true.mp htrailing
  obtain ⟨tokens, stop, hscan, htokens⟩ := Token.scan_texts hseparated .start
  rw [List.flatMap_append, texts_flatMap_pieceLexemes hpieces,
    Lexeme.texts_gap] at hscan
  obtain ⟨body, gap, rfl, hbody, hgap⟩ := List.map_eq_append_iff.mp htokens
  obtain ⟨trees, htrees, hvalues⟩ := exists_attributes hpieces hbody
  refine ⟨_, (Grammar.follows_parseAttributes hscan).result_eq trees ?_,
    hvalues⟩
  rw [Grammar.meaningful_append, Grammar.meaningful_gap hgap, htrees,
    List.append_nil]

end Attribute

theorem Lexeme.isIdent_of_separated {rest : Bytes} {ls : List Lexeme}
    (h : Separated rest ls) {l : Lexeme} (hl : l ∈ ls)
    (hkind : l.kind = .ident) : Token.isIdent l.text = true := by
  obtain ⟨more, hfits⟩ := h.fits_of_mem hl
  rw [hkind] at hfits
  cases hfits with
  | ident hident _ => exact hident

namespace Grammar

def NamesAreIdents (tokens : List Token) : Prop :=
  ∀ t ∈ tokens, isName t = true → Token.isIdent t.text = true

theorem NamesAreIdents.mono {tokens more : List Token} (h : NamesAreIdents more)
    (hsub : tokens ⊆ more) : NamesAreIdents tokens :=
  fun t ht => h t (hsub ht)

mutual

theorem TermTree.isReadable_value :
    ∀ tree : TermTree, NamesAreIdents tree.tokens →
    tree.value.isReadable = true
  | .node name payload, h => by
      have hname := h name.1 List.mem_cons_self name.2
      have hpayload :=
        payload.isReadable_value (h.mono (List.subset_cons_self _ _))
      rw [TermTree.value]
      cases hargs : payload.value with
      | none => exact hname
      | eq value => exact hname
      | paren terms =>
          rw [hargs] at hpayload
          exact Bool.and_eq_true_iff.mpr ⟨hname, hpayload⟩

theorem PayloadTree.isReadable_value :
    ∀ p : PayloadTree, NamesAreIdents p.tokens →
    p.value.isReadable = true
  | .nothing, _ => rfl
  | .equals _ _, _ => rfl
  | .parens _ inside _, h => by
      apply inside.allReadable_values
      exact h.mono fun t ht => by simp [PayloadTree.tokens, ht]

theorem ListTree.allReadable_values : ∀ l : ListTree, NamesAreIdents l.tokens →
    Term.allReadable l.values = true
  | .empty, _ => rfl
  | .terms first others, h => by
      have hfirst :=
        first.isReadable_value (h.mono (List.subset_append_left _ _))
      have hothers :=
        others.allReadable_values (h.mono (List.subset_append_right _ _))
      exact Bool.and_eq_true_iff.mpr ⟨hfirst, hothers⟩

theorem TailTree.allReadable_values :
    ∀ tail : TailTree, NamesAreIdents tail.tokens →
    Term.allReadable tail.values = true
  | .done, _ => rfl
  | .comma _, _ => rfl
  | .more _ next others, h => by
      have htokens : NamesAreIdents (next.tokens ++ others.tokens) :=
        h.mono (List.subset_cons_self _ _)
      have hnext :=
        next.isReadable_value (htokens.mono (List.subset_append_left _ _))
      have hothers :=
        others.allReadable_values (htokens.mono (List.subset_append_right _ _))
      exact Bool.and_eq_true_iff.mpr ⟨hnext, hothers⟩

end

theorem AttributeTree.isReadable_value {tree : AttributeTree}
    (h : NamesAreIdents tree.tokens) :
    tree.value.isReadable = true := by
  obtain ⟨hash, opening, name, payload, closing⟩ := tree
  have hname : Token.isIdent name.1.text = true :=
    h name.1 (by simp [tokens]) name.2
  have hpayload :=
    payload.isReadable_value (h.mono fun t ht => by simp [tokens, ht])
  exact Bool.and_eq_true_iff.mpr ⟨hname, hpayload⟩

theorem namesAreIdents_of_scan {src : Bytes} {tokens : List Token}
    {pos stop : Position}
    (hscan : Token.scan pos src = (tokens, .finished stop)) :
    NamesAreIdents tokens := by
  intro t ht hname
  have hseparated := (Token.separated_of_scan hscan).2
  exact Lexeme.isIdent_of_separated hseparated (List.mem_map_of_mem ht)
    (of_decide_eq_true hname)

end Grammar

namespace Attribute

/-- What a parser returns can be rendered and read again. -/
theorem isReadable_of_parseAttributes {src : Bytes} {attrs : List Attribute}
    (h : parseAttributes src = .ok attrs) :
    ∀ a ∈ attrs, a.isReadable = true := by
  obtain ⟨tokens, stop, hscan⟩ := Grammar.scan_of_readSource h
  have hfollows := Grammar.follows_parseAttributes hscan
  obtain ⟨trees, htrees⟩ := hfollows.succeeds_iff.mp ⟨attrs, h⟩
  have hattrs := Except.ok.inj (h.symm.trans (hfollows.result_eq trees htrees))
  intro a ha
  rw [hattrs] at ha
  obtain ⟨tree, htree, rfl⟩ := List.mem_map.mp ha
  apply Grammar.AttributeTree.isReadable_value
  apply (Grammar.namesAreIdents_of_scan hscan).mono
  intro t ht
  have hmem : t ∈ Grammar.meaningful tokens := by
    rw [← htrees]
    exact List.mem_flatMap.mpr ⟨tree, htree, ht⟩
  exact List.mem_of_mem_filter hmem

theorem map_render_eq_of_unplaced {attrs attrs' : List Attribute}
    (h : attrs.map unplaced = attrs'.map unplaced) :
    attrs.map render = attrs'.map render := by
  have hrender : render ∘ unplaced = render := funext render_unplaced
  rw [← hrender, ← List.map_map, h, List.map_map]

end Attribute

open Attribute

/-- Parsing undoes rendering up to places, whatever blank text stands between
the attributes; and all that parsing ever returns can be rendered, parsed again
to the same, and rendered the same. -/
theorem parse_undoes_render :
    (∀ (pieces : List (Bytes × Attribute)) (trailing : Bytes),
      (∀ piece ∈ pieces, isWritable piece = true) →
        trailing.all Token.isSpace = true →
        ∃ attrs, parseAttributes (renderAll pieces trailing) = .ok attrs
          ∧ attrs.map unplaced = pieces.map fun piece => piece.2.unplaced) ∧
    ∀ (src : Bytes) (attrs : List Attribute), parseAttributes src = .ok attrs →
      (∀ a ∈ attrs, a.isReadable = true) ∧
      ∀ (pieces : List (Bytes × Attribute)) (trailing : Bytes),
        pieces.map Prod.snd = attrs →
        (∀ piece ∈ pieces, piece.1.all Token.isSpace = true) →
        trailing.all Token.isSpace = true →
          ∃ attrs', parseAttributes (renderAll pieces trailing) = .ok attrs'
            ∧ attrs'.map unplaced = attrs.map unplaced
            ∧ attrs'.map render = attrs.map render := by
  refine ⟨fun pieces trailing => parseAttributes_renderAll, ?_⟩
  intro src attrs hparse
  have hreadable := isReadable_of_parseAttributes hparse
  refine ⟨hreadable, ?_⟩
  rintro pieces trailing rfl hgaps htrailing
  have hpieces : ∀ piece ∈ pieces, isWritable piece = true := by
    intro piece hpiece
    exact Bool.and_eq_true_iff.mpr
      ⟨hgaps piece hpiece, hreadable piece.2 (List.mem_map_of_mem hpiece)⟩
  obtain ⟨attrs', hagain, hunplaced⟩ :=
    parseAttributes_renderAll hpieces htrailing
  rw [show (pieces.map fun piece => piece.2.unplaced) =
    (pieces.map Prod.snd).map unplaced by
    simp] at hunplaced
  exact ⟨attrs', hagain, hunplaced, map_render_eq_of_unplaced hunplaced⟩

/-- A value of quote, backslash, line break, a byte that is no text and a zero,
and an empty list inside a list, with no blank between the two attributes. -/
theorem parse_undoes_render_raw_bytes :
    ∃ pieces : List (Bytes × Attribute),
      pieces = [
        (utf8 " ", { name := utf8 "doc", args := .eq [34, 92, 10, 255, 0] }),
        ([], { name := utf8 "cfg",
               args := .paren [.call (utf8 "not") [], .ident (utf8 "a")] })]
      ∧ (∀ piece ∈ pieces, isWritable piece = true)
      ∧ ∃ attrs, parseAttributes (renderAll pieces (utf8 "\n")) = .ok attrs
        ∧ attrs.map unplaced = (pieces.map fun piece => piece.2.unplaced)
        ∧ ∀ a ∈ attrs, a.isReadable = true := by
  refine ⟨_, rfl, by decide, ?_⟩
  obtain ⟨attrs, hparse, hunplaced⟩ := parse_undoes_render.1
    [(utf8 " ", { name := utf8 "doc", args := .eq [34, 92, 10, 255, 0] }),
      ([], { name := utf8 "cfg",
             args := .paren [.call (utf8 "not") [], .ident (utf8 "a")] })]
    (utf8 "\n") (by decide) (by decide)
  exact ⟨attrs, hparse, hunplaced, (parse_undoes_render.2 _ attrs hparse).1⟩

end FeatureGate
