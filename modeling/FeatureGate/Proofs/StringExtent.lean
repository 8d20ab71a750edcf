import Mathlib
import FeatureGate.Proofs.Backtracking
import FeatureGate.Proofs.StringEnds
import FeatureGate.Proofs.Tiling

/-!
The extent of a string. The search for its end goes over characters; the scanner
goes over bytes and takes the same way, because no byte of a longer character is
a quote, a backslash or a line break. So a scan takes what the first match of
the rule of strings takes.
-/

namespace FeatureGate

namespace Pattern

open Token (pairedEnd? Paired)

theorem plain_of_mem_bytes {body : Bytes} {u : Utf8Unit}
    (hu : u ∈ Utf8.units body) (hquote : u ≠ .char '"')
    (hback : u ≠ .char '\\') :
    ∀ b ∈ u.bytes, b ≠ byte '"' ∧ b ≠ byte '\\' := by
  intro b hb
  constructor
  · rintro rfl
    exact hquote (Utf8.eq_char_of_byte_mem hu (by decide) hb)
  · rintro rfl
    exact hback (Utf8.eq_char_of_byte_mem hu (by decide) hb)

/-- A pair of characters is a pair of bytes, and then bytes that need no
pair. -/
theorem paired_backslash {body : Bytes} {u : Utf8Unit}
    (hu : u ∈ Utf8.units body) (hline : u ≠ .char '\n') :
    Paired (byte '\\' :: u.bytes) := by
  by_cases hquote : u = .char '"'
  · rw [hquote]
    exact .pair (by decide) .nil
  by_cases hback : u = .char '\\'
  · rw [hback]
    exact .pair (by decide) .nil
  have hplain := plain_of_mem_bytes hu hquote hback
  cases hbytes : u.bytes with
  | nil => exact absurd hbytes u.bytes_ne_nil
  | cons c cs =>
      rw [hbytes] at hplain
      refine .pair ?_ (.of_forall_ne fun b hb =>
        hplain b (List.mem_cons_of_mem c hb))
      rintro rfl
      exact hline (Utf8.eq_char_of_byte_mem hu (by decide) (by simp [hbytes]))

/-- A backslash that begins no pair is passed alone. -/
theorem pairedEnd?_of_standsAlone {rest : Bytes}
    (h : ∀ v, (Utf8.units rest).head? = some v → v = .char '\n') :
    pairedEnd? (byte '\\' :: rest) = (pairedEnd? rest).map (· + 1) := by
  have hquote : byte '\\' ≠ byte '"' := by decide
  cases rest with
  | nil =>
      rw [Token.pairedEnd?.eq_def, Token.pairedEnd?.eq_def]
      rfl
  | cons c rest =>
      rw [Utf8.units] at h
      have hbytes := Utf8.bytes_unitOf c rest
      rw [h _ rfl] at hbytes
      have hline : c = byte '\n' := (List.cons.inj hbytes).1.symm
      rw [Token.pairedEnd?.eq_def]
      simp only [if_neg hquote, if_pos, hline]

/-- A move over characters takes the bytes that the search over bytes passes. -/
theorem Move.exists_bytes {body : Bytes} {vs : List Utf8Unit}
    (h : Move (Utf8.units body) vs) :
    ∃ passed body', body = passed ++ body' ∧ vs = Utf8.units body'
      ∧ pairedEnd? body = (pairedEnd? body').map (· + passed.length) := by
  generalize hunits : Utf8.units body = us at h
  cases h with
  | @pair u _ hline =>
      obtain ⟨body₁, rfl, hunits₁⟩ := Utf8.units_eq_cons hunits
      obtain ⟨body₂, rfl, rfl⟩ := Utf8.units_eq_cons hunits₁
      have hu : u ∈ Utf8.units (u.bytes ++ body₂) := by
        rw [hunits₁]; exact List.mem_cons_self
      refine ⟨byte '\\' :: u.bytes, body₂, rfl, rfl, ?_⟩
      exact (paired_backslash hu hline).pairedEnd?_append body₂
  | @alone u _ hquote halone =>
      have hu : u ∈ Utf8.units body := by rw [hunits]; exact List.mem_cons_self
      obtain ⟨body', rfl, rfl⟩ := Utf8.units_eq_cons hunits
      refine ⟨u.bytes, body', rfl, rfl, ?_⟩
      by_cases hback : u = .char '\\'
      · subst hback
        exact pairedEnd?_of_standsAlone (halone rfl)
      · exact (Paired.of_forall_ne
          (plain_of_mem_bytes hu hquote hback)).pairedEnd?_append body'

theorem Reaches.exists_bytes {body : Bytes} {vs : List Utf8Unit}
    (h : Reaches (Utf8.units body) vs) :
    ∃ passed body', body = passed ++ body' ∧ vs = Utf8.units body'
      ∧ pairedEnd? body = (pairedEnd? body').map (· + passed.length) := by
  induction h with
  | refl => exact ⟨[], body, rfl, rfl, by simp⟩
  | tail _ hmove ih =>
      obtain ⟨passed, body₁, rfl, rfl, hend⟩ := ih
      obtain ⟨passed', body₂, rfl, rfl, hend'⟩ := hmove.exists_bytes
      refine ⟨passed ++ passed', body₂, by simp, rfl, ?_⟩
      rw [hend, hend', Option.map_map]
      congr 1
      funext n
      simp only [Function.comp_apply, List.length_append]
      omega

theorem quote_mem_of_units {text : Bytes} (h : .char '"' ∈ Utf8.units text) :
    byte '"' ∈ text := by
  rw [← Utf8.flatMap_bytes_units text]
  exact List.mem_flatMap.mpr ⟨_, h, by decide⟩

theorem units_quote (rest : Bytes) :
    Utf8.units (byte '"' :: rest) = .char '"' :: Utf8.units rest := by
  rw [Utf8.units, Utf8.unitOf_one (by decide)]
  rfl

/-- How a string ends whose opening quote stands before `body`, and with which
text behind that quote: at the first quote that the search meets, at the last of
all quotes, or not at all. -/
inductive StringEnds (body : Bytes) : Option Bytes → Prop
  | met {inner after : Bytes} (hbody : body = inner ++ byte '"' :: after)
      (hmeets : Reaches (Utf8.units body) (.char '"' :: Utf8.units after)) :
      StringEnds body (some (inner ++ [byte '"']))
  | last {front after : Bytes} (hbody : body = front ++ byte '"' :: after)
      (hnone : ∀ rest, ¬ Reaches (Utf8.units body) (.char '"' :: rest))
      (hafter : byte '"' ∉ after) : StringEnds body (some (front ++ [byte '"']))
  | never (h : byte '"' ∉ body) : StringEnds body none

/-- A string ends at a quote outside pairs, at the last quote, or not at all. -/
theorem exists_stringEnds (body : Bytes) : ∃ text?, StringEnds body text? := by
  by_cases hmeets : ∃ rest, Reaches (Utf8.units body) (.char '"' :: rest)
  · obtain ⟨rest, hreach⟩ := hmeets
    obtain ⟨inner, body', hbody, hunits, -⟩ := Reaches.exists_bytes hreach
    obtain ⟨after, rfl, rfl⟩ := Utf8.units_eq_cons hunits.symm
    exact ⟨_, .met hbody hreach⟩
  · rw [not_exists] at hmeets
    by_cases hquote : byte '"' ∈ body
    · have hlast : Token.lastQuoteEnd? body = some _ :=
        if_pos (List.contains_iff_mem.mpr hquote)
      obtain ⟨front, after, hbody, hafter, -⟩ :=
        Token.lastQuoteEnd?_eq_some_iff.mp hlast
      exact ⟨_, .last hbody hmeets hafter⟩
    · exact ⟨none, .never hquote⟩

/-- The scanner stops where the string ends. -/
theorem StringEnds.stringEnd?_eq {body : Bytes} {text? : Option Bytes}
    (h : StringEnds body text?) :
    Token.stringEnd? body = text?.map List.length := by
  cases h with
  | @met inner after hbody hmeets =>
      obtain ⟨passed, body', hpassed, hunits, hend⟩ :=
        Reaches.exists_bytes hmeets
      obtain ⟨after', rfl, hafter⟩ := Utf8.units_eq_cons hunits.symm
      obtain rfl := Utf8.units_injective hafter
      have hinner : passed = inner :=
        List.append_cancel_right (hpassed.symm.trans hbody)
      have hclose : pairedEnd? (byte '"' :: after') = some 1 :=
        Paired.nil.pairedEnd?_quote after'
      have hpaired : pairedEnd? body = some (1 + passed.length) := by
        rw [hend]
        exact congrArg _ hclose
      rw [Token.stringEnd?, hpaired, hinner]
      simp [Nat.add_comm]
  | @last front after hbody hnone hafter =>
      have hend : pairedEnd? body = none := by
        rcases reaches_end_or_quote (Utf8.units body)
          with hreach | ⟨rest, hreach⟩
        · obtain ⟨passed, body', -, hunits, hend⟩ := Reaches.exists_bytes hreach
          have hnil : body' = [] :=
            Utf8.units_injective (hunits.symm.trans Utf8.units_nil.symm)
          rw [hend, hnil, Paired.nil.pairedEnd?_eq_none]
          rfl
        · exact absurd hreach (hnone rest)
      rw [Token.stringEnd?, hend, hbody, Token.lastQuoteEnd?_append hafter]
      simp
  | never h =>
      rw [Token.stringEnd?, Token.pairedEnd?_eq_none_of_not_mem h,
        Token.lastQuoteEnd?]
      simp [h]

/-- The bytes of the first match at the front of a text. -/
def firstMatch? (p : Pattern Utf8Unit) (src : Bytes) : Option Bytes :=
  (p.ways (Utf8.units src)).head?.map fun m => m.taken.flatMap Utf8Unit.bytes

theorem firstMatch?_quote (body : Bytes) :
    string.firstMatch? (byte '"' :: body)
      = (stringTail.ways (Utf8.units body)).head?.map fun m =>
          byte '"' :: m.taken.flatMap Utf8Unit.bytes := by
  have hways : string.ways (.char '"' :: Utf8.units body)
      = (stringTail.ways (Utf8.units body)).map (Match.behind [.char '"']) := by
    simp [string, ways]
  rw [firstMatch?, units_quote, hways, List.head?_map, Option.map_map]
  rfl

/-- The regular expression stops there too. -/
theorem StringEnds.firstMatch?_eq {body : Bytes} {text? : Option Bytes}
    (h : StringEnds body text?) :
    string.firstMatch? (byte '"' :: body) = text?.map (byte '"' :: ·) := by
  have hquote : (Utf8Unit.char '"').bytes = [byte '"'] := by decide
  rw [firstMatch?_quote]
  cases h with
  | @met inner after hbody hmeets =>
      obtain ⟨inner', hunits, hhead⟩ := head?_of_reaches hmeets
      have hinner : inner'.flatMap Utf8Unit.bytes = inner := by
        have hbytes := Utf8.flatMap_bytes_units body
        rw [hunits, List.flatMap_append, List.flatMap_cons,
          Utf8.flatMap_bytes_units] at hbytes
        exact List.append_cancel_right (hbytes.trans hbody)
      rw [hhead]
      simp [hinner, hquote]
  | @last front after hbody hnone hafter =>
      have hunits : Utf8.units body
          = Utf8.units front ++ .char '"' :: Utf8.units after := by
        rw [hbody, Utf8.units_append _ (stopsAt_cons.mpr (by decide)),
          units_quote]
      rw [hunits] at hnone ⊢
      rw [head?_of_last hnone fun hmem => hafter (quote_mem_of_units hmem)]
      simp [Utf8.flatMap_bytes_units, hquote]
  | never h =>
      have hnone : .char '"' ∉ Utf8.units body :=
        fun hmem => h (quote_mem_of_units hmem)
      rw [ways_stringTail_eq_nil hnone]
      rfl

theorem StringEnds.exists_append {body text : Bytes}
    (h : StringEnds body (some text)) :
    ∃ after, body = text ++ after := by
  cases h with
  | @met inner after hbody _ => exact ⟨after, by simp [hbody]⟩
  | @last front after hbody _ _ => exact ⟨after, by simp [hbody]⟩

end Pattern

namespace Token

theorem lexeme?_quote (body : Bytes) :
    lexeme? (byte '"' :: body) = (stringEnd? body).map fun n =>
      (.string, n + 1) := by
  have hslash : byte '"' ≠ byte '/' := by decide
  have hspace : isSpace (byte '"') = false := by decide
  simp [lexeme?, hslash, hspace]

theorem scan_stuck {src : Bytes} (h : lexeme? src = none) (hne : src ≠ [])
    (pos : Position) :
    scan pos src = ([], .stuck pos src) := by
  rcases scan_cases pos src
    with ⟨hnil, -⟩ | ⟨-, hscan⟩ | ⟨kind, text, rest, rfl, hfits⟩
  · exact absurd hnil hne
  · exact hscan
  · rw [hfits.lexeme?] at h
    simp at h

end Token

open Token Pattern

/-- Where a token begins with a quote, the string reaches to the first quote
outside all pairs, else to the last quote of the source, and without one the
scan gets stuck there. This is what the first match of the rule
`"(?:\\.|[^"])*"` takes. -/
theorem string_extent {src body : Bytes} {before later : List Token}
    {last : ScanEnd} (hscan : Token.scan .start src = (before ++ later, last))
    (hstart : src = before.flatMap Token.text ++ byte '"' :: body) :
    (∃ text?, StringEnds body text?) ∧
      ∀ text?, StringEnds body text? →
        string.firstMatch? (byte '"' :: body) = text?.map (byte '"' :: ·) ∧
        match text? with
        | some text =>
            later.head? = some ⟨.string, byte '"' :: text,
              .behind (before.flatMap Token.text)⟩
        | none =>
            later = [] ∧ last = .stuck (.behind (before.flatMap Token.text))
              (byte '"' :: body) := by
  obtain ⟨rest, hrest, hlater⟩ := exists_rest_of_scan hscan
  obtain rfl : rest = byte '"' :: body :=
    List.append_cancel_left (hrest.symm.trans hstart)
  refine ⟨exists_stringEnds body, fun text? hends => ⟨hends.firstMatch?_eq, ?_⟩⟩
  have hend := hends.stringEnd?_eq
  cases text? with
  | some text =>
      obtain ⟨after, rfl⟩ := hends.exists_append
      have hfits : Fits .string (byte '"' :: text) after := .string hend
      rw [← List.cons_append, scan_append hfits, Prod.mk.injEq] at hlater
      simp only [← hlater.1, List.head?_cons]
  | none =>
      rw [scan_stuck (by rw [lexeme?_quote, hend]; rfl) (by simp),
        Prod.mk.injEq] at hlater
      exact ⟨hlater.1.symm, hlater.2.symm⟩

/-- The only quote behind the opening one stands in a pair, so it is the last
one that ends the string; the backslash before it and the one before the longer
character begin pairs. -/
theorem string_extent_escaped_quote :
    Token.scan .start (utf8 "a\"\\é\\\" b")
        = ([⟨.ident, utf8 "a", ⟨0, 1, 1⟩⟩] ++
            [⟨.string, utf8 "\"\\é\\\"", ⟨1, 1, 2⟩⟩,
              ⟨.whitespace, utf8 " ", ⟨7, 1, 7⟩⟩,
              ⟨.ident, utf8 "b", ⟨8, 1, 8⟩⟩],
          .finished ⟨9, 1, 9⟩) ∧
      StringEnds (utf8 "\\é\\\" b") (some (utf8 "\\é\\\"")) ∧
      string.firstMatch? (utf8 "\"\\é\\\" b") = some (utf8 "\"\\é\\\"") := by
  have hscan : Token.scan .start (utf8 "a\"\\é\\\" b")
      = ([⟨.ident, utf8 "a", ⟨0, 1, 1⟩⟩] ++
          [⟨.string, utf8 "\"\\é\\\"", ⟨1, 1, 2⟩⟩,
            ⟨.whitespace, utf8 " ", ⟨7, 1, 7⟩⟩, ⟨.ident, utf8 "b", ⟨8, 1, 8⟩⟩],
        .finished ⟨9, 1, 9⟩) := by
    decide +kernel
  obtain ⟨⟨text?, hends⟩, hextent⟩ :=
    string_extent hscan
      (show _ = _ ++ byte '"' :: utf8 "\\é\\\" b" by decide +kernel)
  obtain ⟨hfirst, hlater⟩ := hextent text? hends
  cases text? with
  | none => simp at hlater
  | some text =>
      obtain rfl : utf8 "\\é\\\"" = text := by
        simp only [List.head?_cons, Option.some.injEq, Token.mk.injEq] at hlater
        exact (List.cons.inj hlater.2.1).2
      exact ⟨hscan, hends, hfirst⟩

end FeatureGate
