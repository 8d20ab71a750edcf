import Mathlib
import FeatureGate.Proofs.Places

/-!
The tokens of a scan tile the text in front of its end. A scan that has taken
some tokens goes on as a scan of what is left, at the place counted over all of
them; so each token, and the end, stands where the text in front of it says.
-/

namespace FeatureGate

namespace Token

theorem isContinuation_of_isIdentStart {b : UInt8} (h : isIdentStart b = true) :
    Utf8.isContinuation b = false := by
  have hmark : byte '_' = 95 := by decide
  simp only [isIdentStart, Bytes.isLetter, hmark, Bool.or_eq_true,
    Bool.and_eq_true, decide_eq_true_eq] at h
  rw [Bool.eq_false_iff, ne_eq, Utf8.isContinuation, Bool.and_eq_true,
    decide_eq_true_eq]
  grind

/-- No token begins inside a character. -/
theorem Fits.stopsAt_isContinuation {kind : TokenKind} {text rest : Bytes}
    (h : Fits kind text rest) (more : Bytes) :
    StopsAt Utf8.isContinuation (text ++ more) := by
  cases h with
  | comment h hrest => exact stopsAt_cons.mpr (by decide)
  | @whitespace b text rest h hrest =>
      apply stopsAt_cons.mpr
      rcases isSpace_iff.mp (h b List.mem_cons_self)
        with rfl | rfl | rfl | rfl | rfl <;> decide
  | string h => exact stopsAt_cons.mpr (by decide)
  | ident h hrest =>
      cases text with
      | nil => simp [isIdent] at h
      | cons b text =>
          rw [isIdent, Bool.and_eq_true] at h
          exact stopsAt_cons.mpr (isContinuation_of_isIdentStart h.1)
  | punct h =>
      apply stopsAt_cons.mpr
      rcases isPunct_iff.mp h with rfl | rfl | rfl | rfl | rfl | rfl | rfl | rfl
        <;> decide

theorem Fits.text_ne_nil {kind : TokenKind} {text rest : Bytes}
    (h : Fits kind text rest) :
    text ≠ [] := by
  rintro rfl
  exact absurd (lexeme?_pos h.lexeme?) (by simp)

/-- One step of a scan, seen from the token it took. -/
theorem scan_cons {pos : Position} {src : Bytes} {t : Token}
    {later : List Token} {last : ScanEnd}
    (h : scan pos src = (t :: later, last)) :
    ∃ rest, src = t.text ++ rest ∧ t.pos = pos ∧ Fits t.kind t.text rest
      ∧ scan (pos.advance t.text) rest = (later, last) := by
  rcases scan_cases pos src
    with ⟨-, hscan⟩ | ⟨-, hscan⟩ | ⟨kind, text, rest, rfl, hfits⟩
  · simp [hscan] at h
  · simp [hscan] at h
  · rw [scan_append hfits, Prod.mk.injEq, List.cons.injEq] at h
    obtain ⟨⟨rfl, htokens⟩, hlast⟩ := h
    exact ⟨rest, rfl, rfl, hfits, Prod.ext htokens hlast⟩

/-- A scan that takes no token is at the end of the text, or no token fits
there. -/
theorem scan_nil {pos : Position} {src : Bytes} {last : ScanEnd}
    (h : scan pos src = ([], last)) :
    (src = [] ∧ last = .finished pos) ∨
      (lexeme? src = none ∧ last = .stuck pos src) := by
  rcases scan_cases pos src
    with ⟨hsrc, hscan⟩ | ⟨hnone, hscan⟩ | ⟨kind, text, rest, rfl, hfits⟩
  · rw [hscan, Prod.mk.injEq] at h
    exact Or.inl ⟨hsrc, h.2.symm⟩
  · rw [hscan, Prod.mk.injEq] at h
    exact Or.inr ⟨hnone, h.2.symm⟩
  · rw [scan_append hfits] at h
    simp at h

/-- A scan goes on behind the tokens it has taken, at the place counted over all
of them. -/
theorem scan_resume {text src : Bytes} {before later : List Token}
    {last : ScanEnd} (h : scan (.behind text) src = (before ++ later, last)) :
    ∃ rest, src = before.flatMap Token.text ++ rest
      ∧ scan (.behind (text ++ before.flatMap Token.text)) rest =
        (later, last) := by
  induction before generalizing text src with
  | nil => exact ⟨src, rfl, by simpa using h⟩
  | cons t before ih =>
      obtain ⟨rest, rfl, -, hfits, hscan⟩ := scan_cons h
      have hplace := hfits.stopsAt_isContinuation []
      rw [List.append_nil] at hplace
      rw [Position.advance_behind text hplace] at hscan
      obtain ⟨rest, rfl, hlater⟩ := ih hscan
      refine ⟨rest, by simp, ?_⟩
      rw [List.flatMap_cons, ← List.append_assoc]
      exact hlater

/-- What may stand behind what: only strings and marks follow their own kind,
and a comment is followed by the blank text that begins with its line break. -/
def Adjoins (t u : Token) : Prop :=
  (t.kind = u.kind → t.kind = .string ∨ t.kind = .punct)
    ∧ (t.kind = .comment → u.kind = .whitespace ∧ u.text.head? = some 10)

/-- A line break begins blank text and no other token. -/
theorem Fits.of_break {kind : TokenKind} {text rest : Bytes}
    (h : Fits kind text rest)
    (hbreak : StopsAt (fun b => decide (b ≠ 10)) (text ++ rest)) :
    kind = .whitespace ∧ text.head? = some 10 := by
  cases h with
  | comment _ _ => exact absurd (stopsAt_cons.mp hbreak) (by decide)
  | whitespace _ _ =>
      have hhead := stopsAt_cons.mp hbreak
      exact ⟨rfl, congrArg some (by simpa using hhead)⟩
  | string _ => exact absurd (stopsAt_cons.mp hbreak) (by decide)
  | ident hident _ =>
      cases text with
      | nil => simp [isIdent] at hident
      | cons b text =>
          obtain rfl : b = 10 := by simpa using stopsAt_cons.mp hbreak
          rw [isIdent, Bool.and_eq_true] at hident
          exact absurd hident.1 (by decide)
  | @punct b _ hmark =>
      obtain rfl : b = 10 := by simpa using stopsAt_cons.mp hbreak
      exact absurd hmark (by decide)

theorem Fits.adjoins {t u : Token} {rest : Bytes}
    (h : Fits t.kind t.text (u.text ++ rest)) (h' : Fits u.kind u.text rest) :
    t.Adjoins u := by
  obtain ⟨kind, text, pos⟩ := t
  obtain ⟨kind', text', pos'⟩ := u
  simp only [Adjoins] at h h' ⊢
  cases h with
  | comment _ hstop =>
      obtain ⟨rfl, hhead⟩ := h'.of_break hstop
      exact ⟨by simp, fun _ => ⟨rfl, hhead⟩⟩
  | whitespace _ hstop =>
      refine ⟨?_, by simp⟩
      rintro rfl
      cases h' with
      | @whitespace b _ _ hspace _ =>
          exact absurd (hspace b List.mem_cons_self)
            (by simpa using stopsAt_cons.mp hstop)
  | string _ => exact ⟨fun _ => Or.inl rfl, by simp⟩
  | ident _ hstop =>
      refine ⟨?_, by simp⟩
      rintro rfl
      cases h' with
      | ident hident _ =>
          cases text' with
          | nil => simp [isIdent] at hident
          | cons b text' =>
              have hpart := isIdentPart_of_mem hident b List.mem_cons_self
              exact absurd hpart (by simpa using stopsAt_cons.mp hstop)
  | punct _ => exact ⟨fun _ => Or.inr rfl, by simp⟩

section

variable {src : Bytes} {before tokens later : List Token} {t : Token}
    {last : ScanEnd}

/-- A scan can be taken up behind any of its tokens. -/
theorem exists_rest_of_scan (h : scan .start src = (before ++ later, last)) :
    ∃ rest, src = before.flatMap Token.text ++ rest ∧
      scan (.behind (before.flatMap Token.text)) rest = (later, last) := by
  rw [← Position.behind_nil] at h
  exact scan_resume h

/-- Where a token of a scan stands, and why it was taken there. -/
theorem exists_fits_of_scan
    (h : scan .start src = (before ++ t :: later, last)) :
    ∃ rest, src = before.flatMap Token.text ++ (t.text ++ rest)
      ∧ t.pos = .behind (before.flatMap Token.text)
      ∧ Fits t.kind t.text rest := by
  obtain ⟨rest, rfl, hscan⟩ := exists_rest_of_scan h
  obtain ⟨rest, rfl, hpos, hfits, -⟩ := scan_cons hscan
  exact ⟨rest, rfl, hpos, hfits⟩

theorem text_ne_nil_of_scan (h : scan .start src = (tokens, last))
    (ht : t ∈ tokens) :
    t.text ≠ [] := by
  obtain ⟨before, later, rfl⟩ := List.append_of_mem ht
  obtain ⟨rest, -, -, hfits⟩ := exists_fits_of_scan h
  exact hfits.text_ne_nil

theorem adjoins_of_scan (h : scan .start src = (tokens, last)) :
    tokens.IsChain Adjoins := by
  rw [List.isChain_iff_forall_rel_of_append_cons_cons]
  rintro t u before later rfl
  obtain ⟨rest, rfl, hscan⟩ := exists_rest_of_scan h
  obtain ⟨rest, rfl, -, hfits, hscan⟩ := scan_cons hscan
  obtain ⟨rest, rfl, -, hfits', -⟩ := scan_cons hscan
  exact hfits.adjoins hfits'

/-- Behind its last token a scan is at the end of the text, or no token fits
there. -/
theorem end_of_scan (h : scan .start src = (tokens, last)) :
    (tokens.flatMap Token.text = src ∧ last = .finished (.behind src)) ∨
      ∃ rest, src = tokens.flatMap Token.text ++ rest ∧ lexeme? rest = none
        ∧ last = .stuck (.behind (tokens.flatMap Token.text)) rest := by
  rw [← List.append_nil tokens] at h
  obtain ⟨rest, hsrc, hscan⟩ := exists_rest_of_scan h
  rcases scan_nil hscan with ⟨rfl, hlast⟩ | ⟨hnone, hlast⟩
  · rw [List.append_nil] at hsrc
    exact Or.inl ⟨hsrc.symm, by rw [hsrc]; exact hlast⟩
  · exact Or.inr ⟨rest, hsrc, hnone, hlast⟩

/-- A scan does not get stuck behind a comment: what follows, if anything, is a
line break. -/
theorem finished_of_comment (h : scan .start src = (before ++ [t], last))
    (ht : t.kind = .comment) : ∃ stop, last = .finished stop := by
  obtain ⟨rest, rfl, hscan⟩ := exists_rest_of_scan h
  obtain ⟨rest, rfl, -, hfits, hscan⟩ := scan_cons hscan
  rcases scan_nil hscan with ⟨-, hlast⟩ | ⟨hnone, hlast⟩
  · exact ⟨_, hlast⟩
  · obtain ⟨kind, text, pos⟩ := t
    subst ht
    cases hfits with
    | comment _ hstop =>
        cases rest with
        | nil =>
            rw [scan, Prod.mk.injEq] at hscan
            exact ⟨_, hscan.2.symm⟩
        | cons b rest =>
            obtain rfl : b = 10 := by simpa using stopsAt_cons.mp hstop
            have hslash : (10 : UInt8) ≠ byte '/' := by decide
            simp [lexeme?, isSpace, hslash] at hnone

end

/-- The tokens of a text and how its scan ended: the tokens cover the text up to
the end, none is empty, and each place is counted over what stands in front of
it. -/
structure Tiles (src : Bytes) (tokens : List Token)
    (last : ScanEnd) : Prop where
  ends : match last with
    | .finished stop => tokens.flatMap Token.text = src ∧ stop = .behind src
    | .stuck stop rest => tokens.flatMap Token.text = src.take stop.offset
        ∧ rest = src.drop stop.offset
        ∧ stop = .behind (src.take stop.offset)
  text_ne_nil : ∀ t ∈ tokens, t.text ≠ []
  pos_eq : ∀ before t later, tokens = before ++ t :: later →
    t.pos = .behind (before.flatMap Token.text)
  adjoins : tokens.IsChain Adjoins
  finished : ∀ t, tokens.getLast? = some t → t.kind = .comment →
    ∃ stop, last = .finished stop

end Token

open Token

/-- The tokens of every text tile it from its start to where the scan ends, at
exact places. -/
theorem scan_tiles (src : Bytes) :
    Tiles src (Token.scan .start src).1 (Token.scan .start src).2 := by
  generalize h : Token.scan .start src = result
  obtain ⟨tokens, last⟩ := result
  constructor
  · rcases end_of_scan h with ⟨htext, rfl⟩ | ⟨rest, rfl, -, rfl⟩
    · exact ⟨htext, rfl⟩
    · simp [Position.behind]
  · exact fun t => text_ne_nil_of_scan h
  · rintro before t later rfl
    obtain ⟨rest, -, hpos, -⟩ := exists_fits_of_scan h
    exact hpos
  · exact adjoins_of_scan h
  · intro t hlast hkind
    obtain ⟨before, rfl⟩ := List.getLast?_eq_some_iff.mp hlast
    exact finished_of_comment h hkind

-- A byte of no character inside a string, and the same byte where no token
-- fits.
example : (Token.scan .start (utf8 "// é\n\"" ++ [0xC3, 0x22, 0xA9])).2
    = .stuck ⟨9, 2, 4⟩ [0xA9] := by decide +kernel

end FeatureGate
