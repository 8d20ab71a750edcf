import Mathlib
import FeatureGate.Source.Token

/-!
What a scan takes from a text. `Fits` says, kind by kind, which text is the
token in front of a given rest; `Separated` says it of a whole list of lexemes.
A scan that reaches the end of a text finds the one separated list of lexemes
that the text is made of.
-/

namespace FeatureGate

/-- A list that is empty or begins with something outside the class. -/
def StopsAt {α : Type} (p : α → Bool) (rest : List α) : Prop :=
  ∀ a, rest.head? = some a → p a = false

@[simp] theorem stopsAt_nil {α : Type} (p : α → Bool) : StopsAt p [] := by
  intro a h
  simp at h

@[simp] theorem stopsAt_cons {α : Type} {p : α → Bool} {a : α} {rest : List α} :
    StopsAt p (a :: rest) ↔ p a = false := by
  simp [StopsAt]

/-- A token without its place. -/
structure Lexeme where
  kind : TokenKind
  text : Bytes
deriving DecidableEq, Repr

namespace Token

def lexeme (t : Token) : Lexeme := ⟨t.kind, t.text⟩

/-- A letter or underscore, then letters, underscores and digits. -/
def isIdent : Bytes → Bool
  | [] => false
  | b :: rest => isIdentStart b && rest.all isIdentPart

theorem length_takeWhile_append_iff {p : UInt8 → Bool} {text rest : Bytes} :
    ((text ++ rest).takeWhile p).length = text.length ↔
      (∀ b ∈ text, p b = true) ∧ StopsAt p rest := by
  induction text with
  | nil =>
      cases rest with
      | nil => simp
      | cons b rest => by_cases hb : p b = true <;> simp [hb]
  | cons b text ih =>
      by_cases hb : p b = true
      · simp [hb, ih]
      · simp [hb]

/-- Text inside a string in which every backslash begins a pair, unless a line
break follows it, and every quote ends one. -/
inductive Paired : Bytes → Prop
  | nil : Paired []
  | plain {b : UInt8} {text : Bytes} (hquote : b ≠ byte '"')
      (hback : b ≠ byte '\\')
      (h : Paired text) : Paired (b :: text)
  | pair {b : UInt8} {text : Bytes} (hline : b ≠ byte '\n') (h : Paired text) :
      Paired (byte '\\' :: b :: text)
  | lone {text : Bytes} (h : Paired (byte '\n' :: text)) :
      Paired (byte '\\' :: byte '\n' :: text)

theorem Paired.append {text more : Bytes} (h : Paired text) (h' : Paired more) :
    Paired (text ++ more) := by
  induction h with
  | nil => exact h'
  | plain hquote hback _ ih => exact .plain hquote hback ih
  | pair hline _ ih => exact .pair hline ih
  | lone _ ih => exact .lone ih

theorem Paired.of_forall_ne {text : Bytes}
    (h : ∀ b ∈ text, b ≠ byte '"' ∧ b ≠ byte '\\') : Paired text := by
  induction text with
  | nil => exact .nil
  | cons b text ih =>
      have hb := h b List.mem_cons_self
      exact .plain hb.1 hb.2 (ih fun b' hb' =>
        h b' (List.mem_cons_of_mem b hb'))

/-- The search for the closing quote passes over paired text. -/
theorem Paired.pairedEnd?_append {text : Bytes} (h : Paired text)
    (rest : Bytes) :
    pairedEnd? (text ++ rest) = (pairedEnd? rest).map (· + text.length) := by
  induction h with
  | nil => simp
  | @plain b text hquote hback _ ih =>
      rw [List.cons_append, pairedEnd?.eq_def]
      simp only [if_neg hquote, if_neg hback, ih, Option.map_map]
      rfl
  | @pair b text hline _ ih =>
      have hquote : byte '\\' ≠ byte '"' := by decide
      rw [List.cons_append, List.cons_append, pairedEnd?.eq_def]
      simp only [if_neg hquote, if_neg hline, if_pos, ih, Option.map_map]
      rfl
  | @lone text _ ih =>
      have hquote : byte '\\' ≠ byte '"' := by decide
      rw [List.cons_append] at ih
      rw [List.cons_append, List.cons_append, pairedEnd?.eq_def]
      simp only [if_neg hquote, if_pos, ih, Option.map_map]
      rfl

/-- The first quote behind whole pairs ends the string. -/
theorem Paired.pairedEnd?_quote {text : Bytes} (h : Paired text)
    (rest : Bytes) :
    pairedEnd? (text ++ byte '"' :: rest) = some (text.length + 1) := by
  have hclose : pairedEnd? (byte '"' :: rest) = some 1 := by
    rw [pairedEnd?.eq_def]
    rfl
  rw [h.pairedEnd?_append, hclose, Option.map_some, Nat.add_comm]

theorem Paired.stringEnd?_append {text : Bytes} (h : Paired text)
    (rest : Bytes) :
    stringEnd? (text ++ byte '"' :: rest) = some (text.length + 1) := by
  rw [stringEnd?, h.pairedEnd?_quote]

theorem pairedEnd?_le {body : Bytes} {n : Nat} (h : pairedEnd? body = some n) :
    n ≤ body.length := by
  fun_induction pairedEnd? body generalizing n with
  | case1 => simp at h
  | case2 rest => simp_all
  | case3 => simp at h
  | case4 rest hquote ih =>
      obtain ⟨m, hm, rfl⟩ := Option.map_eq_some_iff.mp h
      have := ih hm
      simp only [List.length_cons] at this ⊢
      omega
  | case5 c rest hline hquote ih =>
      obtain ⟨m, hm, rfl⟩ := Option.map_eq_some_iff.mp h
      have := ih hm
      simp only [List.length_cons]
      omega
  | case6 b rest hquote hback ih =>
      obtain ⟨m, hm, rfl⟩ := Option.map_eq_some_iff.mp h
      have := ih hm
      simp only [List.length_cons]
      omega

theorem stringEnd?_le {body : Bytes} {n : Nat} (h : stringEnd? body = some n) :
    n ≤ body.length := by
  unfold stringEnd? at h
  split at h
  · rename_i m hm
    rw [← Option.some.inj h]
    exact pairedEnd?_le hm
  · unfold lastQuoteEnd? at h
    split at h
    · rw [← Option.some.inj h]
      exact Nat.sub_le _ _
    · simp at h

/-- The text is the token of the given kind that stands in front of the rest. -/
inductive Fits : TokenKind → Bytes → Bytes → Prop
  | comment {body rest : Bytes} (h : ∀ b ∈ body, b ≠ 10)
      (hrest : StopsAt (fun b => decide (b ≠ 10)) rest) :
      Fits .comment (byte '/' :: byte '/' :: body) rest
  | whitespace {b : UInt8} {text rest : Bytes}
      (h : ∀ c ∈ b :: text, isSpace c = true)
      (hrest : StopsAt isSpace rest) : Fits .whitespace (b :: text) rest
  | string {body rest : Bytes}
      (h : stringEnd? (body ++ rest) = some body.length) :
      Fits .string (byte '"' :: body) rest
  | ident {text rest : Bytes} (h : isIdent text = true)
      (hrest : StopsAt isIdentPart rest) :
      Fits .ident text rest
  | punct {b : UInt8} {rest : Bytes}
      (h : isPunct b = true) : Fits .punct [b] rest

theorem isSpace_iff {b : UInt8} :
    isSpace b = true ↔ b = 32 ∨ b = 9 ∨ b = 10 ∨ b = 12 ∨ b = 13 := by
  simp [isSpace, or_assoc]

theorem isPunct_iff {b : UInt8} :
    isPunct b = true ↔
      b = 35 ∨ b = 91 ∨ b = 93 ∨ b = 40 ∨ b = 41 ∨ b = 44 ∨ b = 61 ∨
        b = 59 := by
  have hmarks : utf8 "#[](),=;" = [35, 91, 93, 40, 41, 44, 61, 59] := by decide
  rw [isPunct, hmarks]
  simp

/-- No identifier begins with a byte that begins a token of another kind. -/
theorem isIdentStart_ne {b : UInt8} (h : isIdentStart b = true) :
    b ≠ byte '/' ∧ isSpace b = false ∧ b ≠ byte '"' ∧ isPunct b = false := by
  refine ⟨?_, ?_, ?_, ?_⟩
  · rintro rfl
    exact absurd h (by decide)
  · rw [Bool.eq_false_iff]
    intro hspace
    rcases isSpace_iff.mp hspace with rfl | rfl | rfl | rfl | rfl
      <;> exact absurd h (by decide)
  · rintro rfl
    exact absurd h (by decide)
  · rw [Bool.eq_false_iff]
    intro hpunct
    rcases isPunct_iff.mp hpunct
      with rfl | rfl | rfl | rfl | rfl | rfl | rfl | rfl <;>
      exact absurd h (by decide)

theorem isSpace_ne {b : UInt8} (h : isSpace b = true) : b ≠ byte '/' := by
  rcases isSpace_iff.mp h with rfl | rfl | rfl | rfl | rfl <;> decide

theorem isPunct_ne {b : UInt8} (h : isPunct b = true) :
    b ≠ byte '/' ∧ isSpace b = false ∧ b ≠ byte '"' ∧
      isIdentStart b = false := by
  rcases isPunct_iff.mp h with rfl | rfl | rfl | rfl | rfl | rfl | rfl | rfl
    <;> decide

theorem isIdentPart_of_isIdentStart {b : UInt8} (h : isIdentStart b = true) :
    isIdentPart b = true := by
  simp [isIdentPart, h]

theorem isIdentPart_of_mem {text : Bytes} (h : isIdent text = true) :
    ∀ b ∈ text, isIdentPart b = true := by
  cases text with
  | nil => simp [isIdent] at h
  | cons b text =>
      simp only [isIdent, Bool.and_eq_true, List.all_eq_true] at h
      intro c hc
      rcases List.mem_cons.mp hc with rfl | hc
      · exact isIdentPart_of_isIdentStart h.1
      · exact h.2 c hc

/-- The token in front of a rest is what the scanner takes there. -/
theorem Fits.lexeme? {kind : TokenKind} {text rest : Bytes}
    (h : Fits kind text rest) :
    lexeme? (text ++ rest) = some (kind, text.length) := by
  cases h with
  | @comment body _ h hrest =>
      have hall : ∀ b ∈ byte '/' :: byte '/' :: body,
          decide (b ≠ 10) = true := by
        intro b hb
        simp only [List.mem_cons] at hb
        rcases hb with rfl | rfl | hb
        · decide
        · decide
        · exact decide_eq_true (h b hb)
      have hlen := length_takeWhile_append_iff.mpr ⟨hall, hrest⟩
      have hslash : (decide (byte '/' = byte '/')
          && decide ((byte '/' :: (body ++ rest)).head? = some (byte '/'))) =
            true := by simp
      simp only [List.cons_append] at hlen ⊢
      rw [Token.lexeme?, if_pos hslash, hlen]
  | @whitespace b text _ h hrest =>
      have hb := h b List.mem_cons_self
      have hlen := length_takeWhile_append_iff.mpr ⟨h, hrest⟩
      have hslash : ¬ (decide (b = byte '/')
          && decide ((text ++ rest).head? = some (byte '/'))) = true := by
            simp [isSpace_ne hb]
      rw [List.cons_append] at hlen ⊢
      rw [Token.lexeme?, if_neg hslash, if_pos hb, hlen]
  | @string body _ h =>
      have hslash : byte '"' ≠ byte '/' := by decide
      have hspace : isSpace (byte '"') = false := by decide
      simp [Token.lexeme?, hslash, hspace, h]
  | ident h hrest =>
      have hlen := length_takeWhile_append_iff.mpr ⟨isIdentPart_of_mem h, hrest⟩
      cases text with
      | nil => simp [isIdent] at h
      | cons b text =>
          simp only [isIdent, Bool.and_eq_true] at h
          obtain ⟨hslash, hspace, hquote, -⟩ := isIdentStart_ne h.1
          rw [List.cons_append] at hlen
          simp [Token.lexeme?, hslash, hspace, hquote, h.1, hlen]
  | @punct b _ h =>
      obtain ⟨hslash, hspace, hquote, hident⟩ := isPunct_ne h
      simp [Token.lexeme?, hslash, hspace, hquote, hident, h]

/-- What the scanner takes is the token in front of what it leaves. -/
theorem fits_of_lexeme? {kind : TokenKind} {text rest : Bytes}
    (h : lexeme? (text ++ rest) = some (kind, text.length)) :
    Fits kind text rest := by
  have hpos := lexeme?_pos h
  cases text with
  | nil => simp at hpos
  | cons b text =>
      rw [List.cons_append, lexeme?] at h
      split at h
      · rename_i hslash
        simp only [Option.some.injEq, Prod.mk.injEq] at h
        obtain ⟨rfl, hlen⟩ := h
        rw [← List.cons_append, length_takeWhile_append_iff] at hlen
        obtain ⟨hall, hrest⟩ := hlen
        simp only [Bool.and_eq_true, decide_eq_true_eq] at hslash
        obtain ⟨rfl, hnext⟩ := hslash
        cases text with
        | nil =>
            -- The second slash would stand in the rest, which begins with a
            -- line break at most.
            exact absurd (hrest _ hnext) (by decide)
        | cons c body =>
            simp only [List.cons_append, List.head?_cons,
              Option.some.injEq] at hnext
            subst hnext
            refine .comment (fun x hx => ?_) hrest
            exact of_decide_eq_true
              (hall x (List.mem_cons_of_mem _ (List.mem_cons_of_mem _ hx)))
      split at h
      · rename_i hb
        simp only [Option.some.injEq, Prod.mk.injEq] at h
        obtain ⟨rfl, hlen⟩ := h
        rw [← List.cons_append, length_takeWhile_append_iff] at hlen
        obtain ⟨hall, hrest⟩ := hlen
        exact .whitespace hall hrest
      split at h
      · rename_i hb
        subst hb
        obtain ⟨n, hn, heq⟩ := Option.map_eq_some_iff.mp h
        simp only [Prod.mk.injEq, List.length_cons,
          Nat.add_right_cancel_iff] at heq
        obtain ⟨rfl, rfl⟩ := heq
        exact .string hn
      split at h
      · rename_i hb
        simp only [Option.some.injEq, Prod.mk.injEq] at h
        obtain ⟨rfl, hlen⟩ := h
        rw [← List.cons_append, length_takeWhile_append_iff] at hlen
        obtain ⟨hall, hrest⟩ := hlen
        refine .ident ?_ hrest
        simp only [isIdent, Bool.and_eq_true, List.all_eq_true]
        exact ⟨hb, fun c hc => hall c (List.mem_cons_of_mem b hc)⟩
      split at h
      · rename_i hb
        simp only [Option.some.injEq, Prod.mk.injEq, List.length_cons] at h
        obtain ⟨rfl, hlen⟩ := h
        have hnil : text = [] := List.length_eq_zero_iff.mp (by omega)
        rw [hnil]
        exact .punct hb
      · simp at h

theorem lexeme?_le {src : Bytes} {kind : TokenKind} {n : Nat}
    (h : lexeme? src = some (kind, n)) : n ≤ src.length := by
  cases src with
  | nil => simp [lexeme?] at h
  | cons b rest =>
      rw [lexeme?] at h
      repeat' split at h
      · simp only [Option.some.injEq, Prod.mk.injEq] at h
        rw [← h.2]
        exact (List.takeWhile_prefix _).length_le
      · simp only [Option.some.injEq, Prod.mk.injEq] at h
        rw [← h.2]
        exact (List.takeWhile_prefix _).length_le
      · obtain ⟨m, hm, heq⟩ := Option.map_eq_some_iff.mp h
        have := stringEnd?_le hm
        simp only [Prod.mk.injEq] at heq
        rw [List.length_cons]
        omega
      · simp only [Option.some.injEq, Prod.mk.injEq] at h
        rw [← h.2]
        exact (List.takeWhile_prefix _).length_le
      · simp only [Option.some.injEq, Prod.mk.injEq] at h
        rw [← h.2, List.length_cons]
        omega
      · simp at h

/-- One step of a scan: the token in front, and the scan of the rest. -/
theorem scan_append {kind : TokenKind} {text rest : Bytes}
    (h : Fits kind text rest) (pos : Position) :
    scan pos (text ++ rest) =
      (⟨kind, text, pos⟩ :: (scan (pos.advance text) rest).1,
        (scan (pos.advance text) rest).2) := by
  have hlexeme := h.lexeme?
  have hpos := lexeme?_pos hlexeme
  cases text with
  | nil => simp at hpos
  | cons b text =>
      rw [List.cons_append] at hlexeme ⊢
      rw [scan]
      split
      · rename_i hnone
        rw [hlexeme] at hnone
        simp at hnone
      · rename_i kind' n hsome
        rw [hlexeme] at hsome
        simp only [Option.some.injEq, Prod.mk.injEq] at hsome
        obtain ⟨rfl, rfl⟩ := hsome
        rw [← List.cons_append, List.take_left, List.drop_left]

/-- A scan that takes a token leaves the rest behind it. -/
theorem scan_cases (pos : Position) (src : Bytes) :
    (src = [] ∧ scan pos src = ([], .finished pos)) ∨
      (lexeme? src = none ∧ scan pos src = ([], .stuck pos src)) ∨
      ∃ kind text rest, src = text ++ rest ∧ Fits kind text rest := by
  cases src with
  | nil =>
      left
      rw [scan]
      exact ⟨rfl, rfl⟩
  | cons b tail =>
      right
      cases hlexeme : lexeme? (b :: tail) with
      | none =>
          left
          rw [scan]
          split
          · exact ⟨rfl, rfl⟩
          · rename_i hsome
            rw [hlexeme] at hsome
            simp at hsome
      | some found =>
          obtain ⟨kind, n⟩ := found
          right
          refine ⟨kind, (b :: tail).take n, (b :: tail).drop n, ?_, ?_⟩
          · exact (List.take_append_drop n _).symm
          · apply fits_of_lexeme?
            rw [List.take_append_drop, List.length_take,
              Nat.min_eq_left (lexeme?_le hlexeme)]
            exact hlexeme

/-- A scan that reaches the end has read nothing, or one token and then the
rest. -/
theorem scan_finished_cases {src : Bytes} {pos stop : Position}
    {tokens : List Token} (h : scan pos src = (tokens, .finished stop)) :
    (src = [] ∧ tokens = [] ∧ stop = pos) ∨
      ∃ kind text rest later, src = text ++ rest ∧ Fits kind text rest
        ∧ tokens = ⟨kind, text, pos⟩ :: later
        ∧ scan (pos.advance text) rest = (later, .finished stop) := by
  rcases scan_cases pos src
    with ⟨rfl, hscan⟩ | ⟨-, hscan⟩ | ⟨kind, text, rest, rfl, hfits⟩
  · left
    simp only [hscan, Prod.mk.injEq, ScanEnd.finished.injEq] at h
    exact ⟨rfl, h.1.symm, h.2.symm⟩
  · simp [hscan] at h
  · right
    rw [scan_append hfits, Prod.mk.injEq] at h
    exact ⟨kind, text, rest, _, rfl, hfits, h.1.symm, Prod.ext rfl h.2⟩

end Token

namespace Lexeme

/-- Layout lexemes are left out before reading. -/
def isLayout (l : Lexeme) : Bool := l.kind = .comment || l.kind = .whitespace

/-- Each lexeme is the token in front of all the later ones and the rest. -/
def Separated (rest : Bytes) : List Lexeme → Prop
  | [] => True
  | l :: ls => Token.Fits l.kind l.text (ls.flatMap Lexeme.text ++ rest) ∧
    Separated rest ls

theorem separated_append {rest : Bytes} {ls more : List Lexeme} :
    Separated rest (ls ++ more) ↔
      Separated (more.flatMap Lexeme.text ++ rest) ls ∧
        Separated rest more := by
  induction ls with
  | nil => simp [Separated]
  | cons l ls ih => simp [Separated, ih, and_assoc]

theorem Separated.fits_of_mem {rest : Bytes} {ls : List Lexeme}
    (h : Separated rest ls) {l : Lexeme} (hl : l ∈ ls) :
    ∃ more, Token.Fits l.kind l.text more := by
  induction ls with
  | nil => simp at hl
  | cons first ls ih =>
      rcases List.mem_cons.mp hl with rfl | hl
      · exact ⟨_, h.1⟩
      · exact ih h.2 hl

end Lexeme

namespace Token

/-- A separated list of lexemes is what a scan of its text finds. -/
theorem scan_texts {ls : List Lexeme} (h : Lexeme.Separated [] ls)
    (pos : Position) :
    ∃ tokens stop, scan pos (ls.flatMap Lexeme.text) = (tokens, .finished stop)
      ∧ tokens.map lexeme = ls := by
  induction ls generalizing pos with
  | nil =>
      rw [List.flatMap_nil, scan]
      exact ⟨[], pos, rfl, rfl⟩
  | cons l ls ih =>
      obtain ⟨hfits, hrest⟩ := h
      rw [List.append_nil] at hfits
      obtain ⟨tokens, stop, hscan, htokens⟩ := ih hrest (pos.advance l.text)
      refine ⟨⟨l.kind, l.text, pos⟩ :: tokens, stop, ?_, ?_⟩
      · rw [List.flatMap_cons, scan_append hfits, hscan]
      · rw [List.map_cons, htokens]
        rfl

/-- A scan that reaches the end has cut the text into separated lexemes. -/
theorem separated_of_scan {src : Bytes} {pos stop : Position}
    {tokens : List Token} (h : scan pos src = (tokens, .finished stop)) :
    (tokens.map lexeme).flatMap Lexeme.text = src ∧
      Lexeme.Separated [] (tokens.map lexeme) := by
  induction tokens generalizing pos src with
  | nil =>
      rcases scan_finished_cases h
        with ⟨rfl, -, -⟩ | ⟨_, _, _, _, -, -, hnil, -⟩
      · exact ⟨rfl, trivial⟩
      · simp at hnil
  | cons t tokens ih =>
      rcases scan_finished_cases h with
        ⟨-, hnil, -⟩ | ⟨kind, text, rest, _, rfl, hfits, heq, hlater⟩
      · simp at hnil
      · obtain ⟨rfl, rfl⟩ := List.cons.inj heq
        obtain ⟨htext, hseparated⟩ := ih hlater
        refine ⟨?_, ?_, hseparated⟩
        · rw [List.map_cons, List.flatMap_cons, htext]
          rfl
        · rw [htext, List.append_nil]
          exact hfits

end Token

end FeatureGate
