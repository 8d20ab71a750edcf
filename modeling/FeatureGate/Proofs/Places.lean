import Mathlib
import FeatureGate.Proofs.Utf8
import FeatureGate.Proofs.Scanning

/-!
Places in a text. `Position.behind` counts over all that stands in front of a
place; `advance` goes on from an earlier place by what lies between. The two
agree wherever the later part does not begin inside a character, because then
the characters of the parts are the characters of the whole.
-/

namespace FeatureGate

namespace Utf8

/-- Bytes that continue no character leave the unit before them as it is. -/
theorem unitOf_append (lead : UInt8) (rest : Bytes) {more : Bytes}
    (h : StopsAt isContinuation more) :
    unitOf lead (rest ++ more) =
      ((unitOf lead rest).1, (unitOf lead rest).2 ++ more) := by
  cases more with
  | nil => simp
  | cons m more =>
      have hm : isContinuation m = false := stopsAt_cons.mp h
      -- A unit looks at three bytes behind its first at most, and `m` may be
      -- one of them.
      match rest with
      | [] =>
          cases more with
          | nil => grind [unitOf]
          | cons m' more => cases more <;> grind [unitOf]
      | [b] => cases more <;> grind [unitOf]
      | [b, b'] => grind [unitOf]
      | b :: b' :: b'' :: rest => grind [unitOf]

/-- A text can be cut into units on both sides of a place where no unit goes
on. -/
theorem units_append (text : Bytes) {more : Bytes}
    (h : StopsAt isContinuation more) :
    units (text ++ more) = units text ++ units more := by
  fun_induction units text with
  | case1 => rfl
  | case2 lead rest ih =>
      rw [List.cons_append, units, unitOf_append lead rest h, ih]
      rfl

theorem count_append (text : Bytes) {more : Bytes}
    (h : StopsAt isContinuation more) :
    count (text ++ more) = count text + count more := by
  rw [count, units_append text h, List.length_append]
  rfl

theorem count_pos {text : Bytes} (h : text ≠ []) : 0 < count text := by
  cases text with
  | nil => exact absurd rfl h
  | cons lead rest =>
      rw [count, units]
      exact Nat.succ_pos _

end Utf8

namespace Position

/-- The place behind a text, counted over the whole of it: its bytes, its line
breaks, and the characters since the last of them. -/
def behind (text : Bytes) : Position where
  offset := text.length
  line := 1 + text.count 10
  column := 1 + Utf8.count (lastLine text)

/-- The last line begins in the back part if there is a break in it. -/
theorem lastLine_append (front back : Bytes) :
    lastLine (front ++ back)
      = if back.contains 10 then lastLine back else lastLine front ++ back := by
  rw [lastLine, List.reverse_append, List.takeWhile_append]
  by_cases h : back.contains 10 = true
  · have hlength : (back.reverse.takeWhile (· ≠ 10)).length ≠
        back.reverse.length := by
      intro hlength
      have hself := (List.takeWhile_prefix _).eq_of_length hlength
      simpa using List.takeWhile_eq_self_iff.mp hself 10 (by simpa using h)
    rw [if_neg hlength, if_pos h, lastLine]
  · have hall : ∀ b ∈ back.reverse, decide (b ≠ 10) = true := by
      intro b hb
      refine decide_eq_true ?_
      rintro rfl
      exact h (by simpa using hb)
    rw [List.takeWhile_eq_self_iff.mpr hall, if_pos rfl, if_neg h]
    simp [lastLine]

theorem lastLine_of_break (front back : Bytes) :
    lastLine (front ++ 10 :: back) = if back.contains 10 then lastLine back
      else back := by
  have hbreak : lastLine (front ++ [10]) = [] := by simp [lastLine]
  rw [List.append_cons, lastLine_append, hbreak, List.nil_append]

theorem behind_nil : behind [] = start := by decide +kernel

theorem advance_nil (pos : Position) : pos.advance [] = pos := by
  have hcount : Utf8.count [] = 0 := by decide +kernel
  simp [advance, hcount]

/-- Going on over more text leads behind both texts. -/
theorem advance_behind (text : Bytes) {more : Bytes}
    (h : StopsAt Utf8.isContinuation more) :
    (behind text).advance more = behind (text ++ more) := by
  simp only [behind, advance, mk.injEq, List.length_append,
    List.count_append, true_and]
  refine ⟨Nat.add_assoc .., ?_⟩
  rw [lastLine_append]
  split
  · rfl
  · rw [Utf8.count_append _ h, Nat.add_assoc]

/-- An earlier line, or the same line and an earlier column. -/
def isBefore (p q : Position) : Bool :=
  p.line < q.line || (p.line = q.line && p.column < q.column)

theorem isBefore_iff {p q : Position} :
    p.isBefore q = true ↔ p.line < q.line ∨ p.line = q.line ∧
      p.column < q.column := by
  simp [isBefore]

/-- More text moves the place on, unless the text goes on inside a character. -/
theorem isBefore_behind (text : Bytes) {more : Bytes} (hne : more ≠ [])
    (h : StopsAt Utf8.isContinuation more) :
    (behind text).isBefore (behind (text ++ more)) = true := by
  rw [← advance_behind text h, isBefore_iff]
  by_cases hbreak : more.contains 10 = true
  · left
    have hcount : 0 < more.count 10 :=
      List.count_pos_iff.mpr (by simpa using hbreak)
    simp only [advance]
    omega
  · right
    have hcount : more.count 10 = 0 :=
      List.count_eq_zero.mpr (by simpa using hbreak)
    have hpos := Utf8.count_pos hne
    simp only [advance, if_neg hbreak]
    omega

end Position

end FeatureGate
