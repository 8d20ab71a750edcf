import Mathlib
import FeatureGate.Proofs.Places
import FeatureGate.Proofs.RoundTrip
import FeatureGate.Proofs.Relabelling
import FeatureGate.Proofs.StringEnds

/-!
One source behind another. When the strings of the first are closed, a line
break and a second source change no token of the first. The tokens of the second
are found as they are alone, moved by the bytes and lines in front of them, and
so is all that is read from them.
-/

namespace FeatureGate

/-- How far a text is moved by what is put in front of it. -/
structure Shift where
  bytes : Nat
  lines : Nat
deriving DecidableEq, Repr

/-- Lines are put in front, so the column stays. -/
def Position.moved (d : Shift) (pos : Position) : Position :=
  ⟨pos.offset + d.bytes, pos.line + d.lines, pos.column⟩

def Token.moved (d : Shift) (t : Token) : Token :=
  { t with pos := t.pos.moved d }

def Span.moved (d : Shift) (s : Span) : Span :=
  ⟨s.start + d.bytes, s.stop + d.bytes, s.line + d.lines, s.column⟩

def Attribute.moved (d : Shift) (a : Attribute) : Attribute :=
  { a with span := a.span.moved d }

def Item.moved (d : Shift) (i : Item) : Item :=
  { i with attrs := i.attrs.map (Attribute.moved d), span := i.span.moved d }

namespace Position

/-- Moving a place and going on from it can be done in either order. -/
theorem advance_moved (d : Shift) (pos : Position) (text : Bytes) :
    (pos.moved d).advance text = (pos.advance text).moved d := by
  simp only [advance, moved, mk.injEq, and_true]
  omega

/-- Behind a line break the place no longer depends on what stood before it, but
for the bytes and lines counted so far. -/
theorem advance_of_break (pos : Position) (front back : Bytes) :
    pos.advance (front ++ 10 :: back)
      = (start.advance back).moved ⟨pos.offset + front.length + 1,
        pos.line + front.count 10⟩ := by
  have hcolumn : (if (front ++ 10 :: back).contains 10
      then 1 + Utf8.count (lastLine (front ++ 10 :: back))
      else pos.column + Utf8.count (front ++ 10 :: back))
      = if back.contains 10 then 1 + Utf8.count (lastLine back)
        else 1 + Utf8.count back := by
    rw [if_pos (by simp), lastLine_of_break]
    split <;> rfl
  simp only [advance, moved, start, mk.injEq, List.length_append,
    List.length_cons, List.count_append, List.count_cons_self]
  exact ⟨by omega, by omega, hcolumn⟩

end Position

theorem StopsAt.before_break {p : UInt8 → Bool} {rest : Bytes}
    (h : StopsAt p rest) (hbreak : p 10 = false) (more : Bytes) :
    StopsAt p (rest ++ 10 :: more) := by
  cases rest with
  | nil => exact stopsAt_cons.mpr hbreak
  | cons b rest => exact stopsAt_cons.mpr (stopsAt_cons.mp h)

namespace Token

/-- A scan that begins elsewhere finds the same tokens, moved. -/
theorem scan_moved (d : Shift) {src : Bytes} {pos stop : Position}
    {tokens : List Token} (h : scan pos src = (tokens, .finished stop)) :
    scan (pos.moved d) src =
      (tokens.map (moved d), .finished (stop.moved d)) := by
  induction tokens generalizing pos src with
  | nil =>
      rcases scan_finished_cases h
        with ⟨rfl, -, rfl⟩ | ⟨_, _, _, _, -, -, hnil, -⟩
      · rw [scan]
        rfl
      · simp at hnil
  | cons t tokens ih =>
      rcases scan_finished_cases h with
        ⟨-, hnil, -⟩ | ⟨kind, text, rest, _, rfl, hfits, heq, hlater⟩
      · simp at hnil
      · obtain ⟨rfl, rfl⟩ := List.cons.inj heq
        rw [scan_append hfits, Position.advance_moved, ih hlater]
        rfl

theorem fits_blank {text rest : Bytes} (hne : text ≠ [])
    (h : ∀ b ∈ text, isSpace b = true) (hrest : StopsAt isSpace rest) :
    Fits .whitespace text rest := by
  cases text with
  | nil => exact absurd rfl hne
  | cons b text => exact .whitespace h hrest

/-- A line break behind the rest changes no token, unless blank text goes on or
a string was open to the end. -/
theorem Fits.before_break {kind : TokenKind} {text rest : Bytes}
    (h : Fits kind text rest) (hclosed : kind = .string → Closed text.tail)
    (hblank : kind = .whitespace → rest ≠ []) (more : Bytes) :
    Fits kind text (rest ++ 10 :: more) := by
  cases h with
  | comment h hrest => exact .comment h (hrest.before_break (by decide) more)
  | whitespace h hrest =>
      cases rest with
      | nil => exact absurd rfl (hblank rfl)
      | cons b rest =>
          exact .whitespace h (stopsAt_cons.mpr (stopsAt_cons.mp hrest))
  | string h => exact .string ((hclosed rfl).stringEnd?_append _)
  | ident h hrest => exact .ident h (hrest.before_break (by decide) more)
  | punct h => exact .punct h

end Token

namespace Grammar

theorem meaningful_map_moved (d : Shift) (tokens : List Token) :
    meaningful (tokens.map (Token.moved d)) = (meaningful tokens).map
      (Token.moved d) := by
  rw [meaningful, List.filter_map]
  rfl

/-- Blank text, a line break and the blank text in front of a source are one
token, and the rest of the source is found behind it. -/
theorem scan_blank_break {blank src : Bytes} {tokens : List Token}
    {stop : Position} (hblank : ∀ b ∈ blank, Token.isSpace b = true)
    (h : Token.scan .start src = (tokens, .finished stop)) (pos : Position) :
    ∃ tokens' stop', Token.scan pos (blank ++ 10 :: src) =
      (tokens', .finished stop')
      ∧ meaningful tokens' = (meaningful tokens).map
        (Token.moved ⟨pos.offset + blank.length + 1,
          pos.line + blank.count 10⟩) := by
  obtain ⟨front, rest, rfl, hfront, hrest⟩ : ∃ front rest, src = front ++ rest
      ∧ (∀ b ∈ front, Token.isSpace b = true) ∧ StopsAt Token.isSpace rest := by
    refine ⟨src.takeWhile Token.isSpace, src.dropWhile Token.isSpace,
      ?_, ?_, ?_⟩
    · exact List.takeWhile_append_dropWhile.symm
    · exact fun b => List.mem_takeWhile_imp
    · intro b hb
      have := List.head?_dropWhile_not Token.isSpace src
      simpa [hb] using this
  obtain ⟨later, hlater, hsame⟩ : ∃ later,
      Token.scan (Position.start.advance front) rest = (later, .finished stop)
        ∧ meaningful tokens = meaningful later := by
    by_cases hne : front = []
    · subst hne
      rw [Position.advance_nil]
      exact ⟨tokens, h, rfl⟩
    · rw [Token.scan_append (Token.fits_blank hne hfront hrest),
        Prod.mk.injEq] at h
      refine ⟨_, Prod.ext rfl h.2, ?_⟩
      rw [← h.1]
      exact meaningful_cons_of_layout rfl _
  have hall : ∀ b ∈ blank ++ 10 :: front, Token.isSpace b = true := by
    intro b hb
    rcases List.mem_append.mp hb with hb | hb
    · exact hblank b hb
    · rcases List.mem_cons.mp hb with rfl | hb
      · rfl
      · exact hfront b hb
  have htext : blank ++ 10 :: (front ++ rest) = (blank ++ 10 :: front) ++
      rest := by simp
  rw [htext, Token.scan_append (Token.fits_blank (by simp) hall hrest),
    Position.advance_of_break, Token.scan_moved _ hlater]
  refine ⟨_, _, rfl, ?_⟩
  rw [meaningful_cons_of_layout rfl, meaningful_map_moved, hsame]

/-- The tokens of two sources with a line break between them. The induction is
on the tokens of the first; only blank text at its end goes on into the
second. -/
theorem scan_append_break {src src' : Bytes} {tokens tokens' : List Token}
    {pos stop stop' : Position}
    (h : Token.scan pos src = (tokens, .finished stop))
    (hclosed : ∀ t ∈ tokens, t.kind = .string → Token.Closed t.text.tail)
    (h' : Token.scan .start src' = (tokens', .finished stop')) :
    ∃ both last, Token.scan pos (src ++ 10 :: src') = (both, .finished last)
      ∧ meaningful both = meaningful tokens ++ (meaningful tokens').map
        (Token.moved ⟨pos.offset + src.length + 1,
          pos.line + src.count 10⟩) := by
  induction tokens generalizing pos src with
  | nil =>
      rcases Token.scan_finished_cases h
        with ⟨rfl, -, rfl⟩ | ⟨_, _, _, _, -, -, hnil, -⟩
      · exact scan_blank_break (by simp) h' _
      · simp at hnil
  | cons t tokens ih =>
      rcases Token.scan_finished_cases h with
        ⟨-, hnil, -⟩ | ⟨kind, text, rest, _, rfl, hfits, heq, hlater⟩
      · simp at hnil
      · obtain ⟨rfl, rfl⟩ := List.cons.inj heq
        rw [List.forall_mem_cons] at hclosed
        by_cases hlast : kind = .whitespace ∧ rest = []
        · obtain ⟨rfl, rfl⟩ := hlast
          cases hfits with
          | whitespace hblank hrest =>
              rw [Token.scan] at hlater
              obtain ⟨rfl, -⟩ := Prod.mk.inj hlater
              rw [List.append_nil, meaningful_cons_of_layout rfl]
              exact scan_blank_break hblank h' pos
        · have hfits' := hfits.before_break hclosed.1 (fun hkind hnil =>
            hlast ⟨hkind, hnil⟩) src'
          obtain ⟨both, last, hboth, hmeaningful⟩ := ih hlater hclosed.2
          refine ⟨⟨kind, text, pos⟩ :: both, last, ?_, ?_⟩
          · rw [List.append_assoc, Token.scan_append hfits', hboth]
          · have hshift : (⟨(pos.advance text).offset + rest.length + 1,
                (pos.advance text).line + rest.count 10⟩ : Shift)
                = ⟨pos.offset + (text ++ rest).length + 1,
                  pos.line + (text ++ rest).count 10⟩ := by
              simp only [Position.advance, List.length_append,
                List.count_append, Shift.mk.injEq]
              omega
            rw [hshift] at hmeaningful
            rw [← List.singleton_append, meaningful_append, hmeaningful,
              ← List.append_assoc, ← meaningful_append]
            rfl

theorem spanOf_moved (d : Shift) (first last : Token) :
    spanOf (first.moved d) (last.moved d) = (spanOf first last).moved d := by
  simp only [spanOf, Token.moved, Position.moved, Span.moved, Token.stop,
    Span.mk.injEq, and_true, true_and]
  omega

theorem AttributeTree.getLast?_tokens (tree : AttributeTree) :
    tree.tokens.getLast? = some tree.closing.1 := by
  simp [tokens, List.getLast?_cons, List.getLast?_append]

/-- A derivation can be moved along with its tokens. -/
theorem AttributeTree.exists_moved (d : Shift) (tree : AttributeTree) :
    ∃ tree' : AttributeTree, tree'.tokens = tree.tokens.map (Token.moved d)
      ∧ tree'.value = tree.value.moved d := by
  have hlexemes : (tree.tokens.map (Token.moved d)).map Token.lexeme
      = tree.tokens.map Token.lexeme := List.map_map
  obtain ⟨tree', htokens, hunplaced⟩ := tree.exists_of_lexemes hlexemes
  refine ⟨tree', htokens, ?_⟩
  have hhash : tree'.hash.1 = tree.hash.1.moved d := (List.cons.inj htokens).1
  have hclosing : tree'.closing.1 = tree.closing.1.moved d := by
    have hlast := congrArg List.getLast? htokens
    rw [getLast?_tokens, List.getLast?_map, getLast?_tokens] at hlast
    exact Option.some.inj hlast
  simp only [Attribute.unplaced, value, Attribute.mk.injEq] at hunplaced
  simp only [value, Attribute.moved, hhash, hclosing, spanOf_moved, hunplaced.1,
    hunplaced.2.1]

theorem exists_trees_moved {T α : Type} {leaves : T → List Token}
    {value : T → α} {move : α → α}
    {d : Shift}
    (hone : ∀ tree, ∃ tree', leaves tree' = (leaves tree).map (Token.moved d)
      ∧ value tree' = move (value tree)) (trees : List T) :
    ∃ trees' : List T,
      trees'.flatMap leaves = (trees.flatMap leaves).map (Token.moved d)
      ∧ trees'.map value = (trees.map value).map move := by
  induction trees with
  | nil => exact ⟨[], rfl, rfl⟩
  | cons tree trees ih =>
      obtain ⟨tree', htokens, hvalue⟩ := hone tree
      obtain ⟨trees', htokens', hvalues⟩ := ih
      refine ⟨tree' :: trees', ?_, ?_⟩
      · rw [List.flatMap_cons, List.flatMap_cons, List.map_append,
          htokens, htokens']
      · rw [List.map_cons, List.map_cons, List.map_cons, hvalue, hvalues]

theorem ItemTree.head?_tokens (tree : ItemTree) :
    tree.tokens.head? = some tree.first := by
  obtain ⟨attrs, kind, name, semicolon⟩ := tree
  cases attrs <;> rfl

theorem ItemTree.getLast?_tokens (tree : ItemTree) :
    tree.tokens.getLast? = some tree.last := by
  obtain ⟨attrs, kind, name, semicolon⟩ := tree
  cases semicolon <;> simp [tokens, last, List.getLast?_append]

theorem ItemTree.exists_moved (d : Shift) (tree : ItemTree) :
    ∃ tree' : ItemTree, tree'.tokens = tree.tokens.map (Token.moved d)
      ∧ tree'.value = tree.value.moved d := by
  obtain ⟨attrs, hattrs, hvalues⟩ :=
    exists_trees_moved (AttributeTree.exists_moved d) tree.attrs
  have hlexemes :
      ((tree.semicolon.map Subtype.val).toList.map (Token.moved d)).map
        Token.lexeme
      = (tree.semicolon.map Subtype.val).toList.map Token.lexeme := List.map_map
  obtain ⟨semicolon, hsemicolon⟩ :=
    exists_optional_of_lexemes tree.semicolon hlexemes
  let tree' : ItemTree := ⟨attrs, ⟨tree.kind.1.moved d, tree.kind.2⟩,
    ⟨tree.name.1.moved d, tree.name.2⟩, semicolon⟩
  have htokens : tree'.tokens = tree.tokens.map (Token.moved d) := by
    simp only [tree', tokens, hattrs, hsemicolon, List.map_append,
      List.map_cons]
  have hfirst : tree'.first = tree.first.moved d := by
    have hhead := congrArg List.head? htokens
    rw [head?_tokens, List.head?_map, head?_tokens] at hhead
    exact Option.some.inj hhead
  have hlast : tree'.last = tree.last.moved d := by
    have hlast := congrArg List.getLast? htokens
    rw [getLast?_tokens, List.getLast?_map, getLast?_tokens] at hlast
    exact Option.some.inj hlast
  refine ⟨tree', htokens, ?_⟩
  rw [value, hfirst, hlast, spanOf_moved]
  simp only [tree', hvalues]
  rfl

/-- A rule that is repeated over the tokens of one input and then over the moved
tokens of another has the values of the first and the moved values of the
second. -/
theorem Follows.append {T α : Type} {leaves : T → List Token} {value : T → α}
    {move : α → α}
    {d : Shift} {input₁ input₂ : List Token}
    {result₁ result₂ result : Except SyntaxError (List α)}
    (hone : ∀ tree, ∃ tree', leaves tree' = (leaves tree).map (Token.moved d)
      ∧ value tree' = move (value tree))
    (h₁ : Follows leaves value input₁ result₁)
    (h₂ : Follows leaves value input₂ result₂)
    (h : Follows leaves value (input₁ ++ input₂.map (Token.moved d)) result)
    {values₁ values₂ : List α} (hvalues₁ : result₁ = .ok values₁)
    (hvalues₂ : result₂ = .ok values₂) :
    result = .ok (values₁ ++ values₂.map move) := by
  obtain ⟨trees₁, rfl⟩ := h₁.succeeds_iff.mp ⟨values₁, hvalues₁⟩
  obtain ⟨trees₂, rfl⟩ := h₂.succeeds_iff.mp ⟨values₂, hvalues₂⟩
  have hresult₁ := h₁.result_eq trees₁ rfl
  have hresult₂ := h₂.result_eq trees₂ rfl
  rw [hvalues₁, Except.ok.injEq] at hresult₁
  rw [hvalues₂, Except.ok.injEq] at hresult₂
  obtain ⟨trees', htokens, hmoved⟩ := exists_trees_moved hone trees₂
  rw [h.result_eq (trees₁ ++ trees') (by rw [List.flatMap_append, htokens]),
    List.map_append, hmoved, hresult₁, hresult₂]

/-- What a parser accepts of each of two sources it accepts of both, with a line
break between. -/
theorem Parses.append_break {T α : Type} {leaves : T → List Token}
    {value : T → α}
    {parse : Bytes → Except SyntaxError (List α)}
    (hparse : Parses leaves value parse)
    {move : Shift → α → α}
    (hone : ∀ d tree, ∃ tree', leaves tree' = (leaves tree).map (Token.moved d)
      ∧ value tree' = move d (value tree))
    {src src' : Bytes}
    (hclosed : ∀ t ∈ (Token.scan .start src).1,
      t.kind = .string → Token.Closed t.text.tail)
    {values values' : List α} (h : parse src = .ok values)
    (h' : parse src' = .ok values') :
    parse (src ++ utf8 "\n" ++ src')
      = .ok (values ++
        values'.map (move ⟨src.length + 1, src.count 10 + 1⟩)) := by
  have htext : src ++ utf8 "\n" ++ src' = src ++ 10 :: src' := by
    rw [List.append_assoc]
    rfl
  have hshift : (⟨Position.start.offset + src.length + 1,
      Position.start.line + src.count 10⟩
      : Shift) = ⟨src.length + 1, src.count 10 + 1⟩ := by
    simp only [Position.start, Shift.mk.injEq]
    omega
  obtain ⟨tokens, stop, hscan⟩ := hparse.scans h
  obtain ⟨tokens', stop', hscan'⟩ := hparse.scans h'
  rw [hscan] at hclosed
  obtain ⟨both, last, hboth, hmeaningful⟩ :=
    scan_append_break hscan hclosed hscan'
  have hfollows := hparse.follows hboth
  rw [hmeaningful, hshift] at hfollows
  rw [htext]
  exact (hparse.follows hscan).append (hone _)
    (hparse.follows hscan') hfollows h h'

end Grammar

open Grammar

/-- Two accepted sources with a line break between them are accepted, and
nothing is read that was not read from each alone, provided no string of the
first ends with an escaped quote. -/
theorem sources_concatenate (src src' : Bytes)
    (hclosed : ∀ t ∈ (Token.scan .start src).1,
      t.kind = .string → Token.Closed t.text.tail) :
    (∀ items items', parseItems src = .ok items → parseItems src' = .ok items' →
      parseItems (src ++ utf8 "\n" ++ src')
        = .ok (items ++
          items'.map (Item.moved ⟨src.length + 1, src.count 10 + 1⟩))) ∧
    ∀ attrs attrs', parseAttributes src = .ok attrs →
      parseAttributes src' = .ok attrs' →
      parseAttributes (src ++ utf8 "\n" ++ src')
        = .ok (attrs ++
          attrs'.map (Attribute.moved ⟨src.length + 1, src.count 10 + 1⟩)) := by
  constructor
  · intro items items' h h'
    exact parses_parseItems.append_break ItemTree.exists_moved hclosed h h'
  · intro attrs attrs' h h'
    exact parses_parseAttributes.append_break AttributeTree.exists_moved
      hclosed h h'

/-- The first source has an escaped quote inside a string, and a comment at its
end that only the new line break ends. -/
theorem sources_concatenate_open_comment :
    (∀ t ∈ (Token.scan .start (utf8 "#[doc = \"a\\\"b\"] fn one // end")).1,
      t.kind = .string → Token.Closed t.text.tail) ∧
    parseItems (utf8 "#[doc = \"a\\\"b\"] fn one // end" ++ utf8 "\n" ++
      utf8 " #[test]\nfn two;")
      = .ok
        [⟨utf8 "fn", utf8 "one",
            [⟨utf8 "doc", .eq (utf8 "a\"b"), ⟨0, 15, 1, 1⟩⟩], ⟨0, 22, 1, 1⟩⟩,
          ⟨utf8 "fn", utf8 "two",
            [⟨utf8 "test", .none, ⟨31, 38, 2, 2⟩⟩], ⟨31, 46, 2, 2⟩⟩] := by
  have hclosed :
      ∀ t ∈ (Token.scan .start (utf8 "#[doc = \"a\\\"b\"] fn one // end")).1,
      t.kind = .string → Token.Closed t.text.tail := by
    decide +kernel
  have hparse : parseItems (utf8 "#[doc = \"a\\\"b\"] fn one // end")
      = .ok [⟨utf8 "fn", utf8 "one",
        [⟨utf8 "doc", .eq (utf8 "a\"b"), ⟨0, 15, 1, 1⟩⟩], ⟨0, 22, 1, 1⟩⟩] := by
    decide +kernel
  have hparse' : parseItems (utf8 " #[test]\nfn two;")
      = .ok [⟨utf8 "fn", utf8 "two",
        [⟨utf8 "test", .none, ⟨1, 8, 1, 2⟩⟩], ⟨1, 16, 1, 2⟩⟩] := by
    decide +kernel
  exact ⟨hclosed, (sources_concatenate _ _ hclosed).1 _ _ hparse hparse'⟩

end FeatureGate
