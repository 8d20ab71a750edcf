import Mathlib
import FeatureGate.Proofs.Concatenation
import FeatureGate.Proofs.Layout
import FeatureGate.Proofs.Tiling

/-!
Spans. A span runs from the first leaf of a derivation to the last, so its slice
of the source is the text of whole tokens. Cutting off what follows a token
never changes the token: a scan of the slice finds these tokens again, and they
have the same derivation.
-/

namespace FeatureGate

namespace Span

/-- The part of a text that a span covers. -/
def slice (s : Span) (src : Bytes) : Bytes := src.extract s.start s.stop

/-- The span of a text that stands behind another. -/
def covering (front text : Bytes) : Span :=
  ⟨front.length, front.length + text.length, (Position.behind front).line,
    (Position.behind front).column⟩

theorem slice_covering (front text back : Bytes) :
    (covering front text).slice (front ++ (text ++ back)) = text := by
  simp [slice, covering]

/-- A span covers some of the text, ends within it, and tells the line and
column of its start. -/
structure Exact (src : Bytes) (s : Span) : Prop where
  start_lt_stop : s.start < s.stop
  stop_le : s.stop ≤ src.length
  place : Position.behind (src.take s.start) = ⟨s.start, s.line, s.column⟩

theorem exact_covering (front back : Bytes) {text : Bytes} (h : text ≠ []) :
    (covering front text).Exact (front ++ (text ++ back)) := by
  have hlength := List.length_pos_of_ne_nil h
  constructor
  · simp only [covering]
    omega
  · simp only [covering, List.length_append]
    omega
  · simp [covering, Position.behind]

end Span

theorem StopsAt.of_append {α : Type} {p : α → Bool} {rest more : List α}
    (h : StopsAt p (rest ++ more)) : StopsAt p rest := by
  cases rest with
  | nil => exact stopsAt_nil _
  | cons a rest => exact stopsAt_cons.mpr (stopsAt_cons.mp h)

/-- Cutting off what stands behind leaves a token as it is: a string that looks
for its last quote finds no other one in less text. -/
theorem Token.Fits.of_append {kind : TokenKind} {text rest more : Bytes}
    (h : Token.Fits kind text (rest ++ more)) : Token.Fits kind text rest := by
  cases h with
  | comment h hrest => exact .comment h hrest.of_append
  | whitespace h hrest => exact .whitespace h hrest.of_append
  | string h =>
      exact .string (Token.stringEnd?_of_quotes h (List.mem_append_left _))
  | ident h hrest => exact .ident h hrest.of_append
  | punct h => exact .punct h

theorem Lexeme.Separated.of_append {rest more : Bytes} {ls : List Lexeme}
    (h : Lexeme.Separated (rest ++ more) ls) : Lexeme.Separated rest ls := by
  induction ls with
  | nil => trivial
  | cons l ls ih =>
      obtain ⟨hfits, hls⟩ := h
      rw [← List.append_assoc] at hfits
      exact ⟨hfits.of_append, ih hls⟩

namespace Token

theorem texts_map_lexeme (tokens : List Token) :
    (tokens.map lexeme).flatMap Lexeme.text = tokens.flatMap Token.text :=
  List.flatMap_map ..

section

variable {src : Bytes} {front mid back tokens : List Token} {stop : Position}

/-- The text of some tokens of a scan is cut into the same tokens when it stands
alone. -/
theorem scan_part
    (h : scan .start src = (front ++ (mid ++ back), .finished stop)) :
    ∃ tokens last, scan .start (mid.flatMap Token.text) =
      (tokens, .finished last)
      ∧ tokens.map lexeme = mid.map lexeme := by
  obtain ⟨-, hseparated⟩ := separated_of_scan h
  rw [List.map_append, List.map_append, Lexeme.separated_append,
    Lexeme.separated_append]
    at hseparated
  have hmid :
      Lexeme.Separated ([] ++ ((back.map lexeme).flatMap Lexeme.text ++ []))
      (mid.map lexeme) := hseparated.2.1
  rw [← texts_map_lexeme]
  exact scan_texts hmid.of_append .start

/-- The tokens of a scan tile the source, part by part. -/
theorem texts_of_scan
    (h : scan .start src = (front ++ (mid ++ back), .finished stop)) :
    src = front.flatMap Token.text ++
      (mid.flatMap Token.text ++ back.flatMap Token.text) := by
  obtain ⟨htext, -⟩ := separated_of_scan h
  rw [← htext, texts_map_lexeme, List.flatMap_append, List.flatMap_append]

/-- From the first of some tokens to the last is the span of their text. -/
theorem spanOf_of_scan
    (h : scan .start src = (front ++ (mid ++ back), .finished stop))
    {first last : Token} (hfirst : mid.head? = some first)
    (hlast : mid.getLast? = some last) :
    Grammar.spanOf first last = .covering (front.flatMap Token.text)
      (mid.flatMap Token.text) := by
  have hpos : first.pos = .behind (front.flatMap Token.text) := by
    obtain ⟨later, rfl⟩ := List.head?_eq_some_iff.mp hfirst
    obtain ⟨rest, -, hpos, -⟩ := exists_fits_of_scan h
    exact hpos
  have hstop : last.stop =
      (front.flatMap Token.text).length + (mid.flatMap Token.text).length := by
    obtain ⟨earlier, rfl⟩ := List.getLast?_eq_some_iff.mp hlast
    have hsplit : front ++ (earlier ++ [last] ++ back) = (front ++ earlier) ++
        last :: back := by
      simp
    rw [hsplit] at h
    obtain ⟨rest, -, hpos, -⟩ := exists_fits_of_scan h
    rw [Token.stop, hpos]
    simp [Position.behind, Nat.add_assoc]
  rw [Grammar.spanOf, hpos, hstop]
  rfl

/-- Each token ends before the later ones begin. -/
theorem pairwise_of_scan (h : scan .start src = (tokens, .finished stop)) :
    tokens.Pairwise fun t u => t.stop ≤ u.pos.offset := by
  have htrans : ∀ {t u v : Token}, t.stop ≤ u.pos.offset →
      u.stop ≤ v.pos.offset →
      t.stop ≤ v.pos.offset := by
    intro t u v htu huv
    exact htu.trans ((Nat.le_add_right _ _).trans huv)
  have : IsTrans Token fun t u => t.stop ≤ u.pos.offset := ⟨fun _ _ _ => htrans⟩
  apply List.IsChain.pairwise
  rw [List.isChain_iff_forall_rel_of_append_cons_cons]
  rintro t u before later rfl
  obtain ⟨-, -, hpos, -⟩ := exists_fits_of_scan h
  rw [List.append_cons] at h
  obtain ⟨-, -, hpos', -⟩ := exists_fits_of_scan h
  rw [Token.stop, hpos, hpos']
  simp [Position.behind]

end

end Token

/-- White space and comments alone. -/
def IsLayout (text : Bytes) : Prop :=
  ∃ tokens stop, Token.scan .start text = (tokens, .finished stop)
    ∧ ∀ t ∈ tokens, t.isLayout = true

/-- What spans leave of a text behind an offset: the text in front of each, and
behind the last. -/
def gaps (src : Bytes) : (offset : Nat) → List Span → List Bytes
  | offset, [] => [src.drop offset]
  | offset, s :: spans => src.extract offset s.start :: gaps src s.stop spans

namespace Grammar

theorem isLayout_of_meaningful {tokens : List Token}
    (h : meaningful tokens = []) :
    ∀ t ∈ tokens, t.isLayout = true := by
  intro t ht
  simpa using List.filter_eq_nil_iff.mp h t ht

/-- Between the meaningful tokens there is nothing but layout. -/
theorem isLayout_texts {src : Bytes} {front mid back : List Token}
    {stop : Position}
    (h : Token.scan .start src = (front ++ (mid ++ back), .finished stop))
    (hmid : meaningful mid = []) : IsLayout (mid.flatMap Token.text) := by
  obtain ⟨tokens, last, hscan, hlexemes⟩ := Token.scan_part h
  refine ⟨tokens, last, hscan, isLayout_of_meaningful ?_⟩
  have hsame : (meaningful tokens).map Token.lexeme =
      (meaningful mid).map Token.lexeme := by
    rw [Lexeme.map_lexeme_meaningful, Lexeme.map_lexeme_meaningful, hlexemes]
  rw [hmid] at hsame
  exact List.map_eq_nil_iff.mp hsame

/-- Tokens that neither begin nor end with layout. -/
def Trimmed (tokens : List Token) : Prop :=
  StopsAt Token.isLayout tokens ∧ StopsAt Token.isLayout tokens.reverse

theorem stopsAt_map_lexeme {tokens : List Token} :
    StopsAt Lexeme.isLayout (tokens.map Token.lexeme) ↔
      StopsAt Token.isLayout tokens := by
  cases tokens with
  | nil => simp
  | cons t tokens =>
      rw [List.map_cons, stopsAt_cons, stopsAt_cons]
      rfl

theorem Trimmed.of_lexemes {tokens tokens' : List Token} (h : Trimmed tokens)
    (hlexemes : tokens'.map Token.lexeme = tokens.map Token.lexeme) :
    Trimmed tokens' := by
  rw [Trimmed, ← stopsAt_map_lexeme, ← stopsAt_map_lexeme, List.map_reverse,
    hlexemes, ← List.map_reverse, stopsAt_map_lexeme, stopsAt_map_lexeme]
  exact h

theorem meaningful_reverse (tokens : List Token) :
    meaningful tokens.reverse = (meaningful tokens).reverse :=
  List.filter_reverse

theorem head?_meaningful {tokens : List Token}
    (h : StopsAt Token.isLayout tokens) :
    (meaningful tokens).head? = tokens.head? := by
  cases tokens with
  | nil => rfl
  | cons t tokens =>
      rw [meaningful, List.filter_cons_of_pos (by simp [stopsAt_cons.mp h])]
      rfl

theorem getLast?_meaningful {tokens : List Token}
    (h : StopsAt Token.isLayout tokens.reverse) :
    (meaningful tokens).getLast? = tokens.getLast? := by
  rw [← List.head?_reverse, ← List.head?_reverse, ← meaningful_reverse]
  exact head?_meaningful h

theorem exists_trim (tokens : List Token) :
    ∃ gap rest, tokens = gap ++ rest ∧ meaningful gap = [] ∧
      StopsAt Token.isLayout rest := by
  refine ⟨tokens.takeWhile Token.isLayout, tokens.dropWhile Token.isLayout,
    ?_, ?_, ?_⟩
  · exact List.takeWhile_append_dropWhile.symm
  · rw [meaningful, List.filter_eq_nil_iff]
    intro t ht
    simp [List.mem_takeWhile_imp ht]
  · intro t ht
    have := List.head?_dropWhile_not Token.isLayout tokens
    simpa [ht] using this

/-- The tokens that a run of meaningful ones stands for, behind the layout in
front of them. -/
theorem exists_run {tokens run later : List Token}
    (h : meaningful tokens = run ++ later) :
    ∃ gap mid back, tokens = gap ++ (mid ++ back) ∧ meaningful gap = []
      ∧ meaningful mid = run ∧ meaningful back = later ∧ Trimmed mid := by
  obtain ⟨front, back, rfl, hfront, hback⟩ := List.filter_eq_append_iff.mp h
  obtain ⟨gap, rest, rfl, hgap, hrest⟩ := exists_trim front
  obtain ⟨gap', mid, hreverse, hgap', hmid⟩ := exists_trim rest.reverse
  have hsplit : rest = mid.reverse ++ gap'.reverse := by
    rw [← List.reverse_append, ← hreverse, List.reverse_reverse]
  subst hsplit
  have hnone : meaningful gap'.reverse = [] := by
    rw [meaningful_reverse, hgap']
    rfl
  refine ⟨gap, mid.reverse, gap'.reverse ++ back, by simp, hgap, ?_, ?_, ?_, ?_⟩
  · rw [← hfront]
    change meaningful _ = meaningful _
    rw [meaningful_append, meaningful_append, hgap, hnone, List.append_nil]
    rfl
  · rw [meaningful_append, hnone]
    exact hback
  · exact hrest.of_append
  · rw [List.reverse_reverse]
    exact hmid

/-- A rule whose values have the span from the first leaf to the last. -/
def Spanned {T α : Type} (leaves : T → List Token) (value : T → α)
    (span : α → Span) : Prop :=
  ∀ tree, ∃ first last, (leaves tree).head? = some first
    ∧ (leaves tree).getLast? = some last
    ∧ span (value tree) = spanOf first last

theorem spanned_attribute :
    Spanned AttributeTree.tokens AttributeTree.value Attribute.span :=
  fun tree => ⟨_, _, rfl, tree.getLast?_tokens, rfl⟩

theorem spanned_item : Spanned ItemTree.tokens ItemTree.value Item.span :=
  fun tree => ⟨_, _, tree.head?_tokens, tree.getLast?_tokens, rfl⟩

section

variable {T α : Type} {leaves : T → List Token} {value : T → α}
    {span : α → Span}
  {src : Bytes} {tokens : List Token} {stop : Position}

/-- The span of a derivation covers its tokens, and nothing in front of or
behind them. -/
theorem Spanned.eq_covering (hspan : Spanned leaves value span)
    {front mid back : List Token}
    (hscan : Token.scan .start src = (front ++ (mid ++ back), .finished stop))
    {tree : T} (hmid : meaningful mid = leaves tree) (htrim : Trimmed mid) :
    mid ≠ [] ∧ span (value tree) = .covering (front.flatMap Token.text)
      (mid.flatMap Token.text) := by
  obtain ⟨first, last, hfirst, hlast, heq⟩ := hspan tree
  rw [← hmid, head?_meaningful htrim.1] at hfirst
  rw [← hmid, getLast?_meaningful htrim.2] at hlast
  rw [heq]
  refine ⟨?_, Token.spanOf_of_scan hscan hfirst hlast⟩
  rintro rfl
  simp at hfirst

/-- The values of a repeated rule stand one behind the other. -/
theorem Spanned.pairwise (hspan : Spanned leaves value span) {trees : List T}
    (h : (trees.flatMap leaves).Pairwise fun t u => t.stop ≤ u.pos.offset) :
    (trees.map value).Pairwise fun a b => (span a).stop ≤ (span b).start := by
  rw [List.pairwise_flatMap] at h
  rw [List.pairwise_map]
  apply h.2.imp
  intro tree tree' hbefore
  obtain ⟨first, last, -, hlast, heq⟩ := hspan tree
  obtain ⟨first', last', hfirst', -, heq'⟩ := hspan tree'
  rw [heq, heq']
  exact hbefore last (List.mem_of_getLast? hlast) first'
    (List.mem_of_head? hfirst')

/-- Between the values of a repeated rule stands layout alone. The induction is
on the derivations; `front` are the tokens up to the end of the last one that
was passed. -/
theorem Spanned.isLayout_gaps (hspan : Spanned leaves value span)
    {trees : List T} {front rest : List Token}
    (hscan : Token.scan .start src = (front ++ rest, .finished stop))
    (h : meaningful rest = trees.flatMap leaves) :
    ∀ gap ∈ gaps src (front.flatMap Token.text).length
      ((trees.map value).map span), IsLayout gap := by
  induction trees generalizing front rest with
  | nil =>
      rw [← List.append_nil rest] at hscan
      have hdrop : src.drop (front.flatMap Token.text).length =
          rest.flatMap Token.text := by
        rw [Token.texts_of_scan hscan]
        simp
      intro gap hgap
      rw [List.mem_singleton.mp hgap, hdrop]
      exact isLayout_texts hscan h
  | cons tree trees ih =>
      obtain ⟨gap, mid, back, rfl, hgap, hmid, hback, htrim⟩ := exists_run h
      have hscan' := hscan
      rw [← List.append_assoc] at hscan'
      have hspan' := (hspan.eq_covering hscan' hmid htrim).2
      have hextract : src.extract (front.flatMap Token.text).length
          (span (value tree)).start
          = gap.flatMap Token.text := by
        rw [hspan', Token.texts_of_scan hscan]
        simp [Span.covering]
      have hstop : (span (value tree)).stop =
          ((front ++ gap ++ mid).flatMap Token.text).length := by
        rw [hspan']
        simp [Span.covering, Nat.add_assoc]
      rw [List.map_cons, List.map_cons, gaps, hextract, hstop,
        List.forall_mem_cons]
      rw [← List.append_assoc] at hscan'
      exact ⟨isLayout_texts hscan hgap, ih hscan' hback⟩

theorem infix_flatMap_leaves {tree : T} {trees : List T} (h : tree ∈ trees) :
    leaves tree <:+: trees.flatMap leaves :=
  List.infix_of_mem_flatten (List.mem_map_of_mem h)

/-- The tokens of a scan that a derivation was found in. -/
theorem exists_part {run : List Token} (h : run <:+: meaningful tokens) :
    ∃ front mid back, tokens = front ++ (mid ++ back) ∧ meaningful mid = run ∧
      Trimmed mid := by
  obtain ⟨earlier, later, h⟩ := h
  rw [List.append_assoc] at h
  obtain ⟨front, rest, rfl, -, hrest⟩ := List.filter_eq_append_iff.mp h.symm
  obtain ⟨gap, mid, back, rfl, -, hmid, -, htrim⟩ := exists_run hrest
  exact ⟨front ++ gap, mid, back, (List.append_assoc ..).symm, hmid, htrim⟩

/-- The span of a derivation names the place where its text begins. -/
theorem Spanned.exact (hspan : Spanned leaves value span)
    (hscan : Token.scan .start src = (tokens, .finished stop)) {tree : T}
    (h : leaves tree <:+: meaningful tokens) :
    (span (value tree)).Exact src := by
  obtain ⟨front, mid, back, rfl, hmid, htrim⟩ := exists_part h
  obtain ⟨hne, heq⟩ := hspan.eq_covering hscan hmid htrim
  rw [heq, Token.texts_of_scan hscan]
  apply Span.exact_covering
  obtain ⟨t, later, rfl⟩ := List.exists_cons_of_ne_nil hne
  have htext := Token.text_ne_nil_of_scan hscan (t := t) (by simp)
  simp [htext]

/-- The slice of a derivation's span is the source of this one derivation, up to
places. -/
theorem Parses.parse_slice {β : Type}
    {parse : Bytes → Except SyntaxError (List α)}
    (hparse : Parses leaves value parse) (hspan : Spanned leaves value span)
    (shape : α → β)
    (hone : ∀ (tree : T) {tokens : List Token},
      tokens.map Token.lexeme = (leaves tree).map Token.lexeme →
        ∃ tree', leaves tree' = tokens ∧ shape (value tree') = shape
        (value tree))
    (hscan : Token.scan .start src = (tokens, .finished stop)) {tree : T}
    (h : leaves tree <:+: meaningful tokens) :
    ∃ v, parse ((span (value tree)).slice src) = .ok [v]
      ∧ shape v = shape (value tree)
      ∧ span v = ⟨0, (span (value tree)).stop - (span (value tree)).start,
        1, 1⟩ := by
  obtain ⟨front, mid, back, rfl, hmid, htrim⟩ := exists_part h
  have heq := (hspan.eq_covering hscan hmid htrim).2
  have hslice : (span (value tree)).slice src = mid.flatMap Token.text := by
    rw [heq, Token.texts_of_scan hscan, Span.slice_covering]
  obtain ⟨alone, last, hscan', hlexemes⟩ := Token.scan_part hscan
  have hsame :
      (meaningful alone).map Token.lexeme = (leaves tree).map Token.lexeme := by
    rw [← hmid, Lexeme.map_lexeme_meaningful,
      Lexeme.map_lexeme_meaningful, hlexemes]
  obtain ⟨tree', htokens, hshape⟩ := hone tree hsame
  rw [hslice]
  refine ⟨value tree',
    (hparse.follows hscan').result_eq [tree'] (by simp [htokens]), hshape, ?_⟩
  have hwhole : Token.scan .start (mid.flatMap Token.text) =
      ([] ++ (alone ++ []), .finished last) := by
    simpa using hscan'
  have htext : alone.flatMap Token.text = mid.flatMap Token.text := by
    rw [← Token.texts_map_lexeme, hlexemes, Token.texts_map_lexeme]
  rw [(hspan.eq_covering hwhole htokens.symm (htrim.of_lexemes hlexemes)).2,
    heq, htext]
  simp [Span.covering, Position.behind_nil, Position.start]

end

end Grammar

/-- Spans in a source: each is exact, they stand one behind the other, and the
text outside them is layout. -/
structure Placed (src : Bytes) (spans : List Span) : Prop where
  exact : ∀ s ∈ spans, s.Exact src
  ordered : spans.Pairwise fun s s' => s.stop ≤ s'.start
  layout : ∀ gap ∈ gaps src 0 spans, IsLayout gap

open Grammar

/-- Spans stand in the order of the source, with layout between them. -/
theorem Grammar.Spanned.placed {T α : Type} {leaves : T → List Token}
    {value : T → α} {span : α → Span} (hspan : Spanned leaves value span)
    {src : Bytes} {tokens : List Token} {stop : Position}
    (hscan : Token.scan .start src = (tokens, .finished stop)) {trees : List T}
    (h : meaningful tokens = trees.flatMap leaves) :
    Placed src ((trees.map value).map span) := by
  constructor
  · intro s hs
    rw [List.map_map] at hs
    obtain ⟨tree, htree, rfl⟩ := List.mem_map.mp hs
    apply hspan.exact hscan
    rw [h]
    exact infix_flatMap_leaves htree
  · rw [List.pairwise_map]
    apply hspan.pairwise
    rw [← h]
    exact (Token.pairwise_of_scan hscan).sublist List.filter_sublist
  · have hscan' : Token.scan .start src = ([] ++ tokens, .finished stop) :=
      hscan
    exact hspan.isLayout_gaps hscan' h

/-- What is read from a source is placed in it, and has what the derivations
found in a scan of the source give their values. -/
theorem Grammar.Parses.placed {T α : Type} {leaves : T → List Token}
    {value : T → α}
    {span : α → Span} {parse : Bytes → Except SyntaxError (List α)}
    (hparse : Parses leaves value parse) (hspan : Spanned leaves value span)
    {src : Bytes}
    {P : α → Prop}
    (hfound : ∀ {tokens : List Token} {stop : Position},
      Token.scan .start src = (tokens, .finished stop) →
        ∀ {tree : T}, leaves tree <:+: meaningful tokens → P (value tree))
    {values : List α} (h : parse src = .ok values) :
    Placed src (values.map span) ∧ ∀ v ∈ values, P v := by
  obtain ⟨tokens, stop, hscan⟩ := hparse.scans h
  have hfollows := hparse.follows hscan
  obtain ⟨trees, htrees⟩ := hfollows.succeeds_iff.mp ⟨values, h⟩
  have hvalues := hfollows.result_eq trees htrees
  rw [h, Except.ok.injEq] at hvalues
  rw [hvalues]
  refine ⟨hspan.placed hscan htrees.symm, ?_⟩
  intro v hv
  obtain ⟨tree, htree, rfl⟩ := List.mem_map.mp hv
  apply hfound hscan
  rw [← htrees]
  exact infix_flatMap_leaves htree

/-- An attribute in a source: its slice of it is the source of this attribute
alone. -/
structure Attribute.Stands (src : Bytes) (a : Attribute) : Prop where
  exact : a.span.Exact src
  alone : parseAttributes (a.span.slice src)
    = .ok [{ a with span := ⟨0, a.span.stop - a.span.start, 1, 1⟩ }]

/-- An item in a source: its attributes stand in it, one behind the other, and
its slice of the source is the source of this item alone. -/
structure Item.Stands (src : Bytes) (i : Item) : Prop where
  attrs_stand : ∀ a ∈ i.attrs, a.Stands src
  attrs_inside : ∀ a ∈ i.attrs, i.span.start ≤ a.span.start ∧
    a.span.stop ≤ i.span.stop
  attrs_ordered : i.attrs.Pairwise fun a b => a.span.stop ≤ b.span.start
  alone : ∃ i', parseItems (i.span.slice src) = .ok [i']
    ∧ i'.unplaced = i.unplaced
    ∧ i'.span = ⟨0, i.span.stop - i.span.start, 1, 1⟩

section

variable {src : Bytes} {tokens : List Token} {stop : Position}

theorem Grammar.AttributeTree.stands
    (hscan : Token.scan .start src = (tokens, .finished stop))
    {tree : AttributeTree} (h : tree.tokens <:+: meaningful tokens) :
    tree.value.Stands src := by
  refine ⟨spanned_attribute.exact hscan h, ?_⟩
  obtain ⟨⟨name, args, span⟩, hparse, hunplaced, rfl⟩ :=
    parses_parseAttributes.parse_slice spanned_attribute Attribute.unplaced
      AttributeTree.exists_of_lexemes hscan h
  simp only [Attribute.unplaced, Attribute.mk.injEq] at hunplaced
  rw [hparse, hunplaced.1, hunplaced.2.1]

/-- The first leaf begins before all others, and the last one ends behind
them. -/
theorem Grammar.inside_of_pairwise {run : List Token} {first last t : Token}
    (h : run.Pairwise fun t u => t.stop ≤ u.pos.offset)
    (hfirst : run.head? = some first) (hlast : run.getLast? = some last)
    (ht : t ∈ run) :
    first.pos.offset ≤ t.pos.offset ∧ t.stop ≤ last.stop := by
  have hstop : ∀ u : Token, u.pos.offset ≤ u.stop :=
    fun u => Nat.le_add_right _ _
  constructor
  · obtain ⟨later, rfl⟩ := List.head?_eq_some_iff.mp hfirst
    rcases List.mem_cons.mp ht with rfl | ht
    · exact Nat.le_refl _
    · exact (hstop first).trans ((List.pairwise_cons.mp h).1 t ht)
  · obtain ⟨earlier, rfl⟩ := List.getLast?_eq_some_iff.mp hlast
    rcases List.mem_append.mp ht with ht | ht
    · have hbefore :=
        (List.pairwise_append.mp h).2.2 t ht last List.mem_cons_self
      exact hbefore.trans (hstop last)
    · rw [List.mem_singleton.mp ht]

theorem Grammar.ItemTree.stands
    (hscan : Token.scan .start src = (tokens, .finished stop)) {tree : ItemTree}
    (h : tree.tokens <:+: meaningful tokens) : tree.value.Stands src := by
  have hordered : tree.tokens.Pairwise fun t u => t.stop ≤ u.pos.offset :=
    (Token.pairwise_of_scan hscan).sublist (h.sublist.trans List.filter_sublist)
  have hattrs : tree.attrs.flatMap AttributeTree.tokens <+: tree.tokens :=
    List.prefix_append ..
  constructor
  · intro a ha
    obtain ⟨attr, hattr, rfl⟩ := List.mem_map.mp ha
    exact attr.stands hscan
      (((infix_flatMap_leaves hattr).trans hattrs.isInfix).trans h)
  · intro a ha
    obtain ⟨attr, hattr, rfl⟩ := List.mem_map.mp ha
    have hmem : ∀ t ∈ attr.tokens, t ∈ tree.tokens := fun t ht =>
      hattrs.subset (List.mem_flatMap.mpr ⟨attr, hattr, ht⟩)
    have hinside : ∀ t ∈ tree.tokens,
        tree.first.pos.offset ≤ t.pos.offset ∧ t.stop ≤ tree.last.stop :=
      fun t =>
        inside_of_pairwise hordered tree.head?_tokens tree.getLast?_tokens
    exact ⟨(hinside _ (hmem _ List.mem_cons_self)).1,
      (hinside _ (hmem _ (List.mem_of_getLast? attr.getLast?_tokens))).2⟩
  · exact spanned_attribute.pairwise (hordered.sublist hattrs.sublist)
  · exact parses_parseItems.parse_slice spanned_item Item.unplaced
      ItemTree.exists_of_lexemes
      hscan h

end

/-- Spans are exact: between the items of a source stands layout alone, and an
item or attribute that was read is all that its own slice of the source
holds. -/
theorem spans_self_contained (src : Bytes) :
    (∀ items, parseItems src = .ok items →
      Placed src (items.map Item.span) ∧ ∀ i ∈ items, i.Stands src) ∧
    ∀ attrs, parseAttributes src = .ok attrs →
      Placed src (attrs.map Attribute.span) ∧ ∀ a ∈ attrs, a.Stands src := by
  constructor
  · intro items h
    exact parses_parseItems.placed spanned_item ItemTree.stands h
  · intro attrs h
    exact parses_parseAttributes.placed spanned_attribute AttributeTree.stands h

/-- The string of the attribute looks for the last quote of the source, behind a
comment with a character of two bytes. -/
theorem spans_self_contained_escaped_quote :
    let src := utf8 "// é\n#[doc = \"a\\\"]\nfn one; // end"
    let i : Item := ⟨utf8 "fn", utf8 "one",
      [⟨utf8 "doc", .eq (utf8 "\"a\\\""), ⟨6, 19, 2, 1⟩⟩], ⟨6, 27, 2, 1⟩⟩
    parseItems src = .ok [i] ∧ Placed src [i.span] ∧ i.Stands src := by
  intro src i
  have hparse : parseItems src = .ok [i] := by decide +kernel
  obtain ⟨hplaced, hstands⟩ := (spans_self_contained src).1 [i] hparse
  exact ⟨hparse, hplaced, hstands i List.mem_cons_self⟩

end FeatureGate
