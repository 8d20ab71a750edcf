import Mathlib
import FeatureGate.Proofs.Relabelling
import FeatureGate.Proofs.StringEnds

/-!
Layout between tokens. A `Layout` puts blank text and comments of its own
before, between and behind given lexemes. When the lexemes are those of an
accepted source, a scan of the new text finds the same ones again: no string
ends elsewhere, because no comment brings in a quote.
-/

namespace FeatureGate

/-- The text of a comment behind its slashes, with no quote in it. -/
abbrev CommentBody : Type :=
  { body : Bytes // ∀ b ∈ body, b ≠ 10 ∧ b ≠ byte '"' }

/-- A blank byte, or a comment with the line break that ends it. -/
inductive Filler where
  | space (b : UInt8) (h : Token.isSpace b = true)
  | comment (body : CommentBody)

/-- Layout at the end of a source, where a last comment needs no line break. -/
structure Ending where
  fillers : List Filler := []
  last : Option CommentBody := none

namespace CommentBody

def text (body : CommentBody) : Bytes := byte '/' :: byte '/' :: body.1

theorem quote_not_mem (body : CommentBody) : byte '"' ∉ body.text := by
  intro h
  simp only [text, List.mem_cons] at h
  rcases h with h | h | h
  · exact absurd h (by decide)
  · exact absurd h (by decide)
  · exact (body.2 _ h).2 rfl

theorem fits (body : CommentBody) {rest : Bytes}
    (h : StopsAt (fun b => decide (b ≠ 10)) rest) :
    Token.Fits .comment body.text rest :=
  .comment (fun b hb => (body.2 b hb).1) h

end CommentBody

theorem Lexeme.isLayout_of_mem_gap {text : Bytes} {l : Lexeme}
    (h : l ∈ Lexeme.gap text) :
    l.isLayout = true := by
  cases text with
  | nil => simp [Lexeme.gap] at h
  | cons b text =>
      rw [List.mem_singleton.mp h]
      rfl

namespace Filler

def text : Filler → Bytes
  | space b _ => [b]
  | comment body => body.text ++ [10]

theorem quote_not_mem_texts (fillers : List Filler) :
    byte '"' ∉ fillers.flatMap Filler.text := by
  induction fillers with
  | nil => simp
  | cons f fillers ih =>
      rw [List.flatMap_cons, List.mem_append, not_or]
      refine ⟨?_, ih⟩
      cases f with
      | space b h =>
          rw [text, List.mem_singleton]
          rintro rfl
          exact absurd h (by decide)
      | comment body =>
          rw [text, List.mem_append, not_or]
          exact ⟨body.quote_not_mem, by decide⟩

/-- No name goes on into layout. -/
theorem stopsAt_texts {fillers : List Filler} (h : fillers ≠ [])
    (rest : Bytes) :
    StopsAt Token.isIdentPart (fillers.flatMap Filler.text ++ rest) := by
  cases fillers with
  | nil => exact absurd rfl h
  | cons f fillers =>
      cases f with
      | space b hb =>
          apply stopsAt_cons.mpr
          rcases Token.isSpace_iff.mp hb with rfl | rfl | rfl | rfl | rfl
            <;> decide
      | comment body => exact stopsAt_cons.mpr (by decide)

/-- Layout text is cut into layout lexemes. Blank bytes wait for the next one
that is not blank, because a run of them is one lexeme. -/
theorem exists_lexemes (fillers : List Filler) (pending : Bytes) {rest : Bytes}
    (hpending : ∀ b ∈ pending, Token.isSpace b = true)
    (hrest : StopsAt Token.isSpace rest) :
    ∃ ls : List Lexeme, ls.flatMap Lexeme.text =
      pending ++ fillers.flatMap Filler.text
      ∧ Lexeme.Separated rest ls ∧ ∀ l ∈ ls, l.isLayout = true := by
  induction fillers generalizing pending with
  | nil =>
      refine ⟨Lexeme.gap pending, ?_, Lexeme.separated_gap hpending hrest, ?_⟩
      · rw [Lexeme.texts_gap, List.flatMap_nil, List.append_nil]
      · exact fun l => Lexeme.isLayout_of_mem_gap
  | cons f fillers ih =>
      cases f with
      | space b hb =>
          have hmore : ∀ c ∈ pending ++ [b], Token.isSpace c = true := by
            intro c hc
            rcases List.mem_append.mp hc with hc | hc
            · exact hpending c hc
            · rw [List.mem_singleton.mp hc]
              exact hb
          obtain ⟨ls, htext, hseparated, hlayout⟩ := ih (pending ++ [b]) hmore
          refine ⟨ls, ?_, hseparated, hlayout⟩
          rw [htext, List.flatMap_cons, List.append_assoc]
          rfl
      | comment body =>
          have hline : ∀ c ∈ ([10] : Bytes), Token.isSpace c = true := by
            intro c hc
            rw [List.mem_singleton.mp hc]
            rfl
          obtain ⟨ls, htext, hseparated, hlayout⟩ := ih [10] hline
          refine ⟨Lexeme.gap pending ++ ⟨.comment, body.text⟩ :: ls, ?_, ?_, ?_⟩
          · rw [List.flatMap_append, Lexeme.texts_gap, List.flatMap_cons, htext,
              List.flatMap_cons, text, List.append_assoc]
          · rw [Lexeme.separated_append]
            refine ⟨Lexeme.separated_gap hpending ?_, body.fits ?_, hseparated⟩
            · exact stopsAt_cons.mpr (by decide)
            · rw [htext]
              exact stopsAt_cons.mpr (by decide)
          · intro l hl
            rcases List.mem_append.mp hl with hl | hl
            · exact Lexeme.isLayout_of_mem_gap hl
            · rcases List.mem_cons.mp hl with rfl | hl
              · rfl
              · exact hlayout l hl

end Filler

namespace Ending

def text (ending : Ending) : Bytes :=
  ending.fillers.flatMap Filler.text ++
    (ending.last.map CommentBody.text).getD []

theorem quote_not_mem (ending : Ending) : byte '"' ∉ ending.text := by
  obtain ⟨fillers, last⟩ := ending
  rw [text, List.mem_append, not_or]
  refine ⟨Filler.quote_not_mem_texts fillers, ?_⟩
  cases last with
  | none => simp
  | some body => exact body.quote_not_mem

theorem stopsAt_text (ending : Ending) :
    StopsAt Token.isIdentPart ending.text := by
  obtain ⟨fillers, last⟩ := ending
  by_cases h : fillers = []
  · rw [h]
    cases last with
    | none => exact stopsAt_nil _
    | some body => exact stopsAt_cons.mpr (by decide)
  · exact Filler.stopsAt_texts h _

theorem exists_lexemes (ending : Ending) :
    ∃ ls : List Lexeme, ls.flatMap Lexeme.text = ending.text
      ∧ Lexeme.Separated [] ls
      ∧ ∀ l ∈ ls, l.isLayout = true := by
  obtain ⟨fillers, last⟩ := ending
  cases last with
  | none =>
      obtain ⟨ls, htext, hls⟩ :=
        Filler.exists_lexemes fillers [] (by simp) (stopsAt_nil _)
      refine ⟨ls, ?_, hls⟩
      rw [htext]
      simp [text]
  | some body =>
      have hstop : StopsAt Token.isSpace body.text :=
        stopsAt_cons.mpr (by decide)
      obtain ⟨ls, htext, hseparated, hlayout⟩ :=
        Filler.exists_lexemes fillers [] (by simp) hstop
      refine ⟨ls ++ [⟨.comment, body.text⟩], ?_, ?_, ?_⟩
      · rw [List.flatMap_append, htext]
        simp [text]
      · rw [Lexeme.separated_append]
        refine ⟨?_, body.fits (stopsAt_nil _), trivial⟩
        simpa using hseparated
      · intro l hl
        rcases List.mem_append.mp hl with hl | hl
        · exact hlayout l hl
        · rw [List.mem_singleton.mp hl]
          rfl

end Ending

/-- Lexemes laid out: each behind its layout, never none between two names, and
what stands at the end. -/
structure Layout where
  pieces : List (List Filler × Lexeme)
  ending : Ending
  apart : pieces.IsChain fun p q => p.2.kind = .ident →
    q.2.kind = .ident → q.1 ≠ []

namespace Layout

/-- The text of lexemes, each behind its layout, up to the end. -/
def relaid (ending : Ending) : List (List Filler × Lexeme) → Bytes
  | [] => ending.text
  | p :: pieces => p.1.flatMap Filler.text ++ (p.2.text ++ relaid ending pieces)

def text (layout : Layout) : Bytes := relaid layout.ending layout.pieces

def lexemes (layout : Layout) : List Lexeme := layout.pieces.map Prod.snd

/-- A quote in the new text is one of the lexemes, not of the layout. -/
theorem quote_mem_of_relaid {ending : Ending}
    {pieces : List (List Filler × Lexeme)}
    (h : byte '"' ∈ relaid ending pieces) :
    ∃ l ∈ pieces.map Prod.snd, byte '"' ∈ l.text := by
  induction pieces with
  | nil => exact absurd h ending.quote_not_mem
  | cons p pieces ih =>
      rw [relaid, List.mem_append, List.mem_append] at h
      rcases h with h | h | h
      · exact absurd h (Filler.quote_not_mem_texts p.1)
      · exact ⟨p.2, List.mem_cons_self, h⟩
      · obtain ⟨l, hl, hquote⟩ := ih h
        exact ⟨l, List.mem_cons_of_mem _ hl, hquote⟩

end Layout

namespace Token

theorem Fits.stopsAt_isSpace {kind : TokenKind} {text rest : Bytes}
    (h : Fits kind text rest) (hkind : kind ≠ .whitespace) (more : Bytes) :
    StopsAt isSpace (text ++ more) := by
  cases h with
  | comment h hrest => exact stopsAt_cons.mpr (by decide)
  | whitespace h hrest => exact absurd rfl hkind
  | string h => exact stopsAt_cons.mpr (by decide)
  | ident h hrest =>
      cases text with
      | nil => simp [isIdent] at h
      | cons b text =>
          rw [isIdent, Bool.and_eq_true] at h
          exact stopsAt_cons.mpr (isIdentStart_ne h.1).2.1
  | punct h => exact stopsAt_cons.mpr (isPunct_ne h).2.1

theorem Fits.stopsAt_isIdentPart {kind : TokenKind} {text rest : Bytes}
    (h : Fits kind text rest) (hkind : kind ≠ .ident) (more : Bytes) :
    StopsAt isIdentPart (text ++ more) := by
  cases h with
  | comment h hrest => exact stopsAt_cons.mpr (by decide)
  | @whitespace b text rest h hrest =>
      apply stopsAt_cons.mpr
      rcases isSpace_iff.mp (h b List.mem_cons_self)
        with rfl | rfl | rfl | rfl | rfl <;> decide
  | string h => exact stopsAt_cons.mpr (by decide)
  | ident h hrest => exact absurd rfl hkind
  | punct h =>
      apply stopsAt_cons.mpr
      rcases isPunct_iff.mp h with rfl | rfl | rfl | rfl | rfl | rfl | rfl | rfl
        <;> decide

/-- A token with a meaning keeps its extent before another rest that brings in
no quote. -/
theorem Fits.of_quotes {l : Lexeme} {rest rest' : Bytes}
    (h : Fits l.kind l.text rest) (hlayout : l.isLayout = false)
    (hident : l.kind = .ident → StopsAt isIdentPart rest')
    (hquote : byte '"' ∈ rest' → byte '"' ∈ rest) :
    Fits l.kind l.text rest' := by
  obtain ⟨kind, text⟩ := l
  cases h with
  | comment h hrest => simp [Lexeme.isLayout] at hlayout
  | whitespace h hrest => simp [Lexeme.isLayout] at hlayout
  | string h => exact .string (stringEnd?_of_quotes h hquote)
  | ident h hrest => exact .ident h (hident rfl)
  | punct h => exact .punct h

end Token

namespace Lexeme

/-- Leaving out layout and forgetting places can be done in either order. -/
theorem map_lexeme_meaningful (tokens : List Token) :
    (Grammar.meaningful tokens).map Token.lexeme
      = (tokens.map Token.lexeme).filter fun l => !l.isLayout := by
  rw [List.filter_map]
  rfl

theorem quote_mem_texts {ls : List Lexeme} {l : Lexeme}
    (hl : l ∈ ls.filter fun l => !l.isLayout)
    (h : byte '"' ∈ l.text) : byte '"' ∈ ls.flatMap Lexeme.text :=
  List.mem_flatMap.mpr ⟨l, List.mem_of_mem_filter hl, h⟩

end Lexeme

namespace Layout

/-- A name does not run on into what is laid out behind it. -/
theorem stopsAt_relaid {ls : List Lexeme} (hls : Lexeme.Separated [] ls)
    (ending : Ending) {pieces : List (List Filler × Lexeme)}
    (hpieces : pieces.map Prod.snd = ls.filter fun l => !l.isLayout)
    (hfirst : ∀ p, pieces.head? = some p → p.2.kind = .ident → p.1 ≠ []) :
    StopsAt Token.isIdentPart (relaid ending pieces) := by
  cases pieces with
  | nil => exact ending.stopsAt_text
  | cons p pieces =>
      by_cases hgap : p.1 = []
      · have hkind : p.2.kind ≠ .ident := fun hkind => hfirst p rfl hkind hgap
        have hmem : p.2 ∈ ls.filter fun l => !l.isLayout := by
          rw [← hpieces]
          exact List.mem_cons_self
        obtain ⟨more, hfits⟩ := hls.fits_of_mem (List.mem_of_mem_filter hmem)
        rw [relaid, hgap]
        exact hfits.stopsAt_isIdentPart hkind _
      · exact Filler.stopsAt_texts hgap _

/-- The relaid text of separated lexemes is cut into the same lexemes, up to
layout. The induction is on the old list: each lexeme of it that has a meaning
is the next piece. -/
theorem exists_lexemes {ls : List Lexeme} (hls : Lexeme.Separated [] ls)
    (ending : Ending) {pieces : List (List Filler × Lexeme)}
    (hpieces : pieces.map Prod.snd = ls.filter fun l => !l.isLayout)
    (hapart : pieces.IsChain fun p q => p.2.kind = .ident → q.2.kind = .ident →
      q.1 ≠ []) :
    ∃ ls' : List Lexeme, ls'.flatMap Lexeme.text = relaid ending pieces
      ∧ Lexeme.Separated [] ls'
      ∧ (ls'.filter fun l => !l.isLayout) = ls.filter fun l => !l.isLayout := by
  induction ls generalizing pieces with
  | nil =>
      obtain ⟨ls', htext, hseparated, hlayout⟩ := ending.exists_lexemes
      rw [List.map_eq_nil_iff.mp hpieces]
      exact ⟨ls', htext, hseparated,
        List.filter_eq_nil_iff.mpr (by simpa using hlayout)⟩
  | cons l ls ih =>
      obtain ⟨hfits, hls⟩ := hls
      by_cases hlayout : l.isLayout = true
      · rw [List.filter_cons_of_neg (by simp [hlayout])] at hpieces ⊢
        exact ih hls hpieces hapart
      · rw [Bool.not_eq_true] at hlayout
        rw [List.filter_cons_of_pos (by simp [hlayout])] at hpieces ⊢
        obtain ⟨p, pieces, rfl, rfl, hrest⟩ := List.map_eq_cons_iff.mp hpieces
        obtain ⟨ls', htext, hseparated, hmeaningful⟩ := ih hls hrest hapart.tail
        have hident : p.2.kind = .ident →
            StopsAt Token.isIdentPart (relaid ending pieces) := by
          intro hkind
          apply stopsAt_relaid hls ending hrest
          intro q hq
          exact hapart.rel_head? hq hkind
        have hquote : byte '"' ∈ relaid ending pieces →
            byte '"' ∈ ls.flatMap Lexeme.text ++ [] := by
          intro h
          obtain ⟨l, hl, hmem⟩ := quote_mem_of_relaid h
          rw [hrest] at hl
          rw [List.append_nil]
          exact Lexeme.quote_mem_texts hl hmem
        have hagain := hfits.of_quotes hlayout hident hquote
        have hkind : p.2.kind ≠ .whitespace := by
          intro hkind
          simp [Lexeme.isLayout, hkind] at hlayout
        obtain ⟨gap, hgaptext, hgap, hgaplayout⟩ := Filler.exists_lexemes p.1 []
          (by simp) (hagain.stopsAt_isSpace hkind (relaid ending pieces))
        refine ⟨gap ++ p.2 :: ls', ?_, ?_, ?_⟩
        · rw [List.flatMap_append, hgaptext, List.flatMap_cons, htext]
          rfl
        · rw [Lexeme.separated_append, List.flatMap_cons, htext,
            List.append_nil]
          refine ⟨hgap, ?_, hseparated⟩
          rw [htext, List.append_nil]
          exact hagain
        · rw [List.filter_append,
            List.filter_eq_nil_iff.mpr (by simpa using hgaplayout),
            List.nil_append, List.filter_cons_of_pos (by simp [hlayout]),
            hmeaningful]

theorem scan_text {src : Bytes} {tokens : List Token} {stop : Position}
    (hscan : Token.scan .start src = (tokens, .finished stop)) (layout : Layout)
    (hlexemes : layout.lexemes = (Grammar.meaningful tokens).map Token.lexeme) :
    ∃ tokens' stop', Token.scan .start layout.text = (tokens', .finished stop')
      ∧ (Grammar.meaningful tokens').map Token.lexeme
        = (Grammar.meaningful tokens).map Token.lexeme := by
  rw [Lexeme.map_lexeme_meaningful] at hlexemes
  obtain ⟨ls, htext, hseparated, hmeaningful⟩ :=
    exists_lexemes (Token.separated_of_scan hscan).2 layout.ending hlexemes
      layout.apart
  obtain ⟨tokens', stop', hscan', rfl⟩ := Token.scan_texts hseparated .start
  rw [htext] at hscan'
  refine ⟨tokens', stop', hscan', ?_⟩
  rw [Lexeme.map_lexeme_meaningful, Lexeme.map_lexeme_meaningful, hmeaningful]

/-- What a parser accepts it accepts in every layout, up to `shape`. -/
theorem parse_text {T α β : Type} {leaves : T → List Token} {value : T → α}
    {parse : Bytes → Except SyntaxError (List α)}
    (hparse : Grammar.Parses leaves value parse)
    (shape : α → β)
    (hone : ∀ (tree : T) {tokens : List Token},
      tokens.map Token.lexeme = (leaves tree).map Token.lexeme →
        ∃ tree', leaves tree' = tokens ∧ shape (value tree') = shape
        (value tree))
    (layout : Layout) {src : Bytes}
    (hlexemes : layout.lexemes
      = (Grammar.meaningful (Token.scan .start src).1).map Token.lexeme)
      {values : List α}
    (h : parse src = .ok values) :
    ∃ values', parse layout.text = .ok values' ∧
      values'.map shape = values.map shape := by
  obtain ⟨tokens, stop, hscan⟩ := hparse.scans h
  rw [hscan] at hlexemes
  obtain ⟨tokens', stop', hscan', hagain⟩ := layout.scan_text hscan hlexemes
  exact (hparse.follows hscan).of_lexemes shape hone
    (hparse.follows hscan') hagain h

end Layout

open Grammar

/-- A source that is accepted is accepted in every other layout of its tokens,
and up to places it means the same. -/
theorem layout_does_not_matter (src : Bytes) (layout : Layout)
    (hlexemes : layout.lexemes =
      (meaningful (Token.scan .start src).1).map Token.lexeme) :
    (∀ items, parseItems src = .ok items →
      ∃ items', parseItems layout.text = .ok items'
        ∧ items'.map Item.unplaced = items.map Item.unplaced) ∧
    ∀ attrs, parseAttributes src = .ok attrs →
      ∃ attrs', parseAttributes layout.text = .ok attrs'
        ∧ attrs'.map Attribute.unplaced = attrs.map Attribute.unplaced := by
  constructor
  · intro items h
    exact layout.parse_text parses_parseItems Item.unplaced
      ItemTree.exists_of_lexemes hlexemes h
  · intro attrs h
    exact layout.parse_text parses_parseAttributes Attribute.unplaced
      AttributeTree.exists_of_lexemes hlexemes h

/-- A string that ends with an escaped quote, a backslash in the comment behind
it, and a last comment that no line break ends. -/
def Layout.sample : Layout where
  pieces :=
    [([], ⟨.punct, utf8 "#"⟩), ([], ⟨.punct, utf8 "["⟩),
      ([], ⟨.ident, utf8 "doc"⟩), ([], ⟨.punct, utf8 "="⟩),
      ([.space 9 rfl], ⟨.string, utf8 "\"a\\\""⟩), ([], ⟨.punct, utf8 "]"⟩),
      ([.comment ⟨utf8 " \\", by decide +kernel⟩], ⟨.ident, utf8 "fn"⟩),
      ([.space 9 rfl], ⟨.ident, utf8 "run"⟩)]
  ending := ⟨[.space 32 rfl], some ⟨utf8 " end", by decide +kernel⟩⟩
  apart := by simp

/-- The string reaches to the last quote of either source. -/
theorem layout_does_not_matter_escaped_quote :
    Layout.sample.text = utf8 "#[doc=\t\"a\\\"]// \\\nfn\trun // end" ∧
      Layout.sample.lexemes
        = (meaningful (Token.scan .start
          (utf8 "#[doc = \"a\\\"] fn run")).1).map Token.lexeme ∧
      ∃ items items', parseItems (utf8 "#[doc = \"a\\\"] fn run") = .ok items ∧
        items ≠ [] ∧
        parseItems Layout.sample.text = .ok items' ∧
        items'.map Item.unplaced = items.map Item.unplaced := by
  have hlexemes : Layout.sample.lexemes
      = (meaningful (Token.scan .start (utf8 "#[doc = \"a\\\"] fn run")).1).map
        Token.lexeme := by
    decide +kernel
  have hparse : parseItems (utf8 "#[doc = \"a\\\"] fn run")
      = .ok [⟨utf8 "fn", utf8 "run",
        [⟨utf8 "doc", .eq (utf8 "\"a\\\""), ⟨0, 13, 1, 1⟩⟩], ⟨0, 20, 1, 1⟩⟩] := by
    decide +kernel
  obtain ⟨items', hparse', hsame⟩ :=
    (layout_does_not_matter _ _ hlexemes).1 _ hparse
  exact ⟨by decide +kernel, hlexemes, _, items', hparse, by simp, hparse',
    hsame⟩

end FeatureGate
