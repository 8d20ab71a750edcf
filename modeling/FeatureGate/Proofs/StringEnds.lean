import Mathlib
import FeatureGate.Proofs.Scanning

/-!
Where a string ends. The quote that closes it is the first one behind paired
text, and then nothing later matters. When all quotes are escaped the last one
of the source closes the string: the text up to it is paired too, and what
follows matters only in that it has no quote.
-/

namespace FeatureGate

namespace Token

/-- Paired text up to a quote, paired text to the end, or paired text and one
last backslash. -/
theorem pairedEnd?_cases (body : Bytes) :
    (∃ inner after, Paired inner ∧ body = inner ++ byte '"' :: after) ∨
      Paired body ∨ ∃ inner, Paired inner ∧ body = inner ++ [byte '\\'] := by
  fun_induction pairedEnd? body with
  | case1 => exact .inr (.inl .nil)
  | case2 rest => exact .inl ⟨[], rest, .nil, rfl⟩
  | case3 => exact .inr (.inr ⟨[], .nil, rfl⟩)
  | case4 rest hquote ih =>
      -- The line break is looked at next, so the text before the end begins
      -- with it.
      rcases ih
        with ⟨inner, after, hinner, heq⟩ | hpaired | ⟨inner, hinner, heq⟩
      · left
        cases inner with
        | nil => exact absurd (List.cons.inj heq).1 (by decide)
        | cons b inner =>
            obtain ⟨rfl, heq⟩ := List.cons.inj heq
            exact ⟨byte '\\' :: byte '\n' :: inner, after, .lone hinner,
              by rw [heq]; rfl⟩
      · exact .inr (.inl (.lone hpaired))
      · right
        right
        cases inner with
        | nil => exact absurd (List.cons.inj heq).1 (by decide)
        | cons b inner =>
            obtain ⟨rfl, heq⟩ := List.cons.inj heq
            exact ⟨byte '\\' :: byte '\n' :: inner, .lone hinner,
              by rw [heq]; rfl⟩
  | case5 c rest hline hquote ih =>
      rcases ih
        with ⟨inner, after, hinner, rfl⟩ | hpaired | ⟨inner, hinner, rfl⟩
      · exact .inl ⟨_, after, .pair hline hinner, rfl⟩
      · exact .inr (.inl (.pair hline hpaired))
      · exact .inr (.inr ⟨_, .pair hline hinner, rfl⟩)
  | case6 b rest hquote hback ih =>
      rcases ih
        with ⟨inner, after, hinner, rfl⟩ | hpaired | ⟨inner, hinner, rfl⟩
      · exact .inl ⟨_, after, .plain hquote hback hinner, rfl⟩
      · exact .inr (.inl (.plain hquote hback hpaired))
      · exact .inr (.inr ⟨_, .plain hquote hback hinner, rfl⟩)

theorem Paired.pairedEnd?_eq_none {text : Bytes} (h : Paired text) :
    pairedEnd? text = none := by
  have happend := h.pairedEnd?_append []
  have hnil : pairedEnd? [] = none := by rw [pairedEnd?.eq_def]
  rwa [List.append_nil, hnil] at happend

/-- The end with pairs is behind the first quote that no pair takes in. -/
theorem pairedEnd?_eq_some_iff {body : Bytes} {n : Nat} :
    pairedEnd? body = some n ↔
      ∃ inner after, Paired inner ∧ body = inner ++ byte '"' :: after ∧
        n = inner.length + 1 := by
  constructor
  · intro h
    rcases pairedEnd?_cases body
      with ⟨inner, after, hinner, rfl⟩ | hpaired | ⟨inner, hinner, rfl⟩
    · rw [hinner.pairedEnd?_quote] at h
      exact ⟨inner, after, hinner, rfl, (Option.some.inj h).symm⟩
    · rw [hpaired.pairedEnd?_eq_none] at h
      simp at h
    · have hback : pairedEnd? [byte '\\'] = none := by
        rw [pairedEnd?.eq_def]
        rfl
      rw [hinner.pairedEnd?_append, hback] at h
      simp at h
  · rintro ⟨inner, after, hinner, rfl, rfl⟩
    exact hinner.pairedEnd?_quote after

theorem pairedEnd?_eq_none_of_not_mem {body : Bytes} (h : byte '"' ∉ body) :
    pairedEnd? body = none := by
  rw [Option.eq_none_iff_forall_ne_some]
  intro n hn
  obtain ⟨inner, after, -, rfl, -⟩ := pairedEnd?_eq_some_iff.mp hn
  simp at h

/-- A quote inside paired text is the second half of a pair, and the pair ends
with it. -/
theorem Paired.through_quote {front after : Bytes}
    (h : Paired (front ++ byte '"' :: after)) :
    Paired (front ++ [byte '"']) := by
  generalize htext : front ++ byte '"' :: after = text at h
  induction h generalizing front with
  | nil => simp at htext
  | @plain b text hquote hback h ih =>
      cases front with
      | nil => exact absurd (List.cons.inj htext).1.symm hquote
      | cons c front =>
          rw [List.cons_append, List.cons.injEq] at htext
          rw [htext.1]
          exact .plain hquote hback (ih htext.2)
  | @pair b text hline h ih =>
      match front with
      | [] => exact absurd (List.cons.inj htext).1 (by decide)
      | [c] =>
          rw [(List.cons.inj htext).1]
          exact .pair (by decide) .nil
      | c :: d :: front =>
          simp only [List.cons_append, List.cons.injEq] at htext
          rw [htext.1, htext.2.1]
          exact .pair hline (ih htext.2.2)
  | @lone text h ih =>
      match front with
      | [] => exact absurd (List.cons.inj htext).1 (by decide)
      | [c] =>
          exact absurd (List.cons.inj (List.cons.inj htext).2).1 (by decide)
      | c :: d :: front =>
          rw [List.cons_append, List.cons.injEq] at htext
          have hinner := ih htext.2
          rw [List.cons_append, List.cons.injEq] at htext
          rw [List.cons_append, htext.2.1] at hinner
          rw [htext.1, htext.2.1]
          exact .lone hinner

theorem lastQuoteEnd?_append {front after : Bytes} (h : byte '"' ∉ after) :
    lastQuoteEnd? (front ++ byte '"' :: after) = some (front.length + 1) := by
  have hafter : ∀ b ∈ after.reverse, decide (b ≠ byte '"') = true := by
    intro b hb
    refine decide_eq_true ?_
    rintro rfl
    exact h (List.mem_reverse.mp hb)
  have htake :
      ((front ++ byte '"' :: after).reverse.takeWhile (· ≠ byte '"')).length
      = after.length := by
    have hlength : after.length = after.reverse.length :=
      List.length_reverse.symm
    rw [List.reverse_append, List.reverse_cons, List.append_assoc, hlength,
      length_takeWhile_append_iff]
    exact ⟨hafter, stopsAt_cons.mpr (by decide)⟩
  rw [lastQuoteEnd?, if_pos (by simp), htake]
  simp only [List.length_append, List.length_cons, Option.some.injEq]
  omega

/-- The end without pairs is behind the very last quote. -/
theorem lastQuoteEnd?_eq_some_iff {body : Bytes} {n : Nat} :
    lastQuoteEnd? body = some n ↔
      ∃ front after, body = front ++ byte '"' :: after ∧ byte '"' ∉ after
        ∧ n = front.length + 1 := by
  constructor
  · intro h
    have hmem : byte '"' ∈ body.reverse := by
      by_contra hmem
      rw [lastQuoteEnd?, if_neg (by simpa using hmem)] at h
      simp at h
    obtain ⟨after, front, heq, hafter⟩ := List.eq_append_cons_of_mem hmem
    have hbody : body = front.reverse ++ byte '"' :: after.reverse := by
      rw [← List.reverse_reverse body, heq]
      simp
    have hclean : byte '"' ∉ after.reverse := by simpa using hafter
    rw [hbody, lastQuoteEnd?_append hclean] at h
    exact ⟨_, _, hbody, hclean, (Option.some.inj h).symm⟩
  · rintro ⟨front, after, rfl, hafter, rfl⟩
    exact lastQuoteEnd?_append hafter

/-- The inside of a string and its closing quote, when the quote stands outside
all pairs. -/
def Closed (body : Bytes) : Prop := pairedEnd? body = some body.length

instance (body : Bytes) : Decidable (Closed body) :=
  inferInstanceAs (Decidable (pairedEnd? body = some body.length))

theorem closed_iff {body : Bytes} :
    Closed body ↔ ∃ inner, Paired inner ∧ body = inner ++ [byte '"'] := by
  constructor
  · intro h
    obtain ⟨inner, after, hinner, rfl, hlength⟩ := pairedEnd?_eq_some_iff.mp h
    have hafter : after = [] := by
      rw [List.length_append, List.length_cons] at hlength
      exact List.length_eq_zero_iff.mp (by omega)
    rw [hafter]
    exact ⟨inner, hinner, rfl⟩
  · rintro ⟨inner, hinner, rfl⟩
    exact pairedEnd?_eq_some_iff.mpr ⟨inner, [], hinner, rfl, by simp⟩

/-- Nothing behind its closing quote makes a closed string longer or shorter. -/
theorem Closed.stringEnd?_append {body : Bytes} (h : Closed body)
    (rest : Bytes) :
    stringEnd? (body ++ rest) = some body.length := by
  obtain ⟨inner, hinner, rfl⟩ := closed_iff.mp h
  rw [List.append_assoc, List.singleton_append, hinner.stringEnd?_append]
  simp

/-- A string that is not closed ends with an escaped quote, and no quote
follows. -/
theorem closed_or_last {body rest : Bytes}
    (h : stringEnd? (body ++ rest) = some body.length) :
    Closed body ∨
      (Paired body ∧ byte '"' ∉ rest ∧
        ∃ front, body = front ++ [byte '"']) := by
  rw [stringEnd?] at h
  split at h
  · rename_i n hpaired
    left
    obtain ⟨inner, after, hinner, heq, rfl⟩ := pairedEnd?_eq_some_iff.mp hpaired
    have hlength : (inner ++ [byte '"']).length = body.length := by
      simpa using Option.some.inj h
    rw [List.append_cons] at heq
    rw [(List.append_inj heq hlength.symm).1, closed_iff]
    exact ⟨inner, hinner, rfl⟩
  · rename_i hnone
    right
    obtain ⟨front, after, heq, hafter, hlength⟩ :=
      lastQuoteEnd?_eq_some_iff.mp h
    rw [List.append_cons] at heq
    obtain ⟨rfl, rfl⟩ := List.append_inj heq (by simpa using hlength)
    refine ⟨?_, hafter, front, rfl⟩
    rw [← List.append_cons] at hnone
    rcases pairedEnd?_cases (front ++ byte '"' :: rest) with
      ⟨inner, after, hinner, heq⟩ | hpaired | ⟨inner, hinner, heq⟩
    · rw [heq, hinner.pairedEnd?_quote] at hnone
      simp at hnone
    · exact hpaired.through_quote
    · -- The last backslash stands behind the last quote.
      rcases List.eq_nil_or_concat rest with rfl | ⟨rest, b, rfl⟩
      · exact absurd (List.append_inj_right' heq rfl) (by decide)
      · rw [List.concat_eq_append, ← List.cons_append,
          ← List.append_assoc] at heq
        have hinner' := List.append_inj_left' heq rfl
        rw [← hinner'] at hinner
        exact hinner.through_quote

theorem Paired.stringEnd?_append_of_not_mem {front rest : Bytes}
    (h : Paired (front ++ [byte '"'])) (hrest : byte '"' ∉ rest) :
    stringEnd? (front ++ [byte '"'] ++ rest) =
      some (front ++ [byte '"']).length := by
  rw [stringEnd?, h.pairedEnd?_append, pairedEnd?_eq_none_of_not_mem hrest]
  simp only [Option.map_none]
  rw [← List.append_cons, lastQuoteEnd?_append hrest]
  simp

/-- A string ends where it ended when the text behind it is replaced by one with
no new quote. -/
theorem stringEnd?_of_quotes {body rest rest' : Bytes}
    (h : stringEnd? (body ++ rest) = some body.length)
    (hquote : byte '"' ∈ rest' → byte '"' ∈ rest) :
    stringEnd? (body ++ rest') = some body.length := by
  rcases closed_or_last h with hclosed | ⟨hpaired, hrest, front, rfl⟩
  · exact hclosed.stringEnd?_append rest'
  · exact hpaired.stringEnd?_append_of_not_mem fun hmem => hrest (hquote hmem)

end Token

end FeatureGate
