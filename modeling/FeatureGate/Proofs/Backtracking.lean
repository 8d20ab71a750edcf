import Mathlib
import FeatureGate.Text.Utf8

/-!
Matching with backtracking. `Pattern.ways` lists all matches of a regular
expression at the front of a text in the order in which a backtracking search
comes upon them, so the first one is the match such a search reports. For the
rule of strings this is found without backtracking: `Move` goes forward only,
and when it meets no quote the first match ends at the last quote of all.
-/

namespace FeatureGate

inductive Pattern (α : Type) where
  | one (test : α → Bool)
  | seq (first second : Pattern α)
  | either (first second : Pattern α)
  | star (part : Pattern α)

namespace Pattern

variable {α : Type}

/-- A match at the front of a text: what it takes and what it leaves. -/
structure Match (α : Type) where
  taken : List α
  rest : List α
deriving DecidableEq, Repr

/-- The match, and in front of it what was taken before. -/
def Match.behind (taken : List α) (m : Match α) : Match α :=
  ⟨taken ++ m.taken, m.rest⟩

/-- Repetitions of a part, more of them before fewer; each takes something. -/
def repeats (part : List α → List (Match α)) (input : List α) :
    List (Match α) :=
  ((part input).flatMap fun m =>
    if _h : m.rest.length < input.length then
      (repeats part m.rest).map (Match.behind m.taken)
    else [])
    ++ [⟨[], input⟩]
termination_by input.length

/-- All matches at the front of a text, in the order in which a search with
backtracking comes upon them: the first alternative before the second, and
repetition before none. -/
def ways : Pattern α → List α → List (Match α)
  | one test => fun
    | [] => []
    | a :: rest => if test a then [⟨[a], rest⟩] else []
  | seq first second => fun input =>
      (first.ways input).flatMap fun m => (second.ways m.rest).map
        (Match.behind m.taken)
  | either first second => fun input => first.ways input ++ second.ways input
  | star part => repeats part.ways

theorem behind_behind (taken taken' : List α) (m : Match α) :
    Match.behind taken (Match.behind taken' m) = Match.behind
      (taken ++ taken') m := by
  simp [Match.behind]

/-- A repetition before something else: once more and on, or what comes next. -/
theorem ways_star_seq {part : Pattern α} (next : Pattern α) {input : List α}
    (h : ∀ m ∈ part.ways input, m.rest.length < input.length) :
    (seq (star part) next).ways input =
      ((part.ways input).flatMap fun m =>
        ((seq (star part) next).ways m.rest).map (Match.behind m.taken)) ++
          next.ways input := by
  have hseq : ∀ input, (seq (star part) next).ways input
      = (repeats part.ways input).flatMap fun m => (next.ways m.rest).map
        (Match.behind m.taken) :=
    fun _ => rfl
  have hnone : (next.ways input).map (Match.behind []) = next.ways input :=
    List.map_id _
  simp only [hseq]
  rw [repeats, List.flatMap_append, List.flatMap_singleton, hnone,
    List.flatMap_assoc]
  congr 1
  apply List.flatMap_congr
  intro m hm
  rw [dif_pos (h m hm), List.flatMap_map, List.map_flatMap]
  apply List.flatMap_congr
  intro m' _
  rw [List.map_map]
  apply List.map_congr_left
  intro m'' _
  exact (behind_behind m.taken m'.taken m'').symm

/-- A character inside a string: `\\.` or else `[^"]`. -/
def inString : Pattern Utf8Unit :=
  either (seq (one (· = .char '\\')) (one (· ≠ .char '\n')))
    (one (· ≠ .char '"'))

/-- A string behind its opening quote: `(?:\\.|[^"])*"`. -/
def stringTail : Pattern Utf8Unit := seq (star inString) (one (· = .char '"'))

/-- A string: `"(?:\\.|[^"])*"`. -/
def string : Pattern Utf8Unit := seq (one (· = .char '"')) stringTail

/-- The character is not the backslash of a pair. -/
def StandsAlone (u : Utf8Unit) (rest : List Utf8Unit) : Prop :=
  u = .char '\\' → ∀ v, rest.head? = some v → v = .char '\n'

theorem ways_inString_alone {u : Utf8Unit} {rest : List Utf8Unit}
    (hquote : u ≠ .char '"') (halone : StandsAlone u rest) :
    inString.ways (u :: rest) = [⟨[u], rest⟩] := by
  by_cases hback : u = .char '\\'
  · cases rest with
    | nil => simp [inString, ways, hback]
    | cons v rest => simp [inString, ways, hback, halone hback v rfl]
  · simp [inString, ways, hback, hquote]

/-- Behind a backslash a unit is taken along, or else left for later. -/
theorem ways_inString_pair {v : Utf8Unit} (rest : List Utf8Unit)
    (h : v ≠ .char '\n') :
    inString.ways (.char '\\' :: v :: rest)
      = [⟨[.char '\\', v], rest⟩, ⟨[.char '\\'], v :: rest⟩] := by
  simp [inString, ways, h, Match.behind]

theorem ways_stringTail_nil : stringTail.ways [] = [] := by
  rw [stringTail, ways_star_seq _ (by simp [inString, ways])]
  simp [inString, ways]

theorem ways_stringTail_quote (rest : List Utf8Unit) :
    stringTail.ways (.char '"' :: rest) = [⟨[.char '"'], rest⟩] := by
  have hnone : inString.ways (.char '"' :: rest) = [] := by
    simp [inString, ways]
  rw [stringTail, ways_star_seq _ (by simp [hnone]), hnone]
  simp [ways]

theorem ways_stringTail_alone {u : Utf8Unit} {rest : List Utf8Unit}
    (hquote : u ≠ .char '"') (halone : StandsAlone u rest) :
    stringTail.ways (u :: rest) = (stringTail.ways rest).map
      (Match.behind [u]) := by
  have hone := ways_inString_alone hquote halone
  rw [stringTail, ways_star_seq _ (by simp [hone]), hone]
  simp [ways, hquote]

/-- The ways with the pair come before those with the backslash alone. -/
theorem ways_stringTail_pair {v : Utf8Unit} (rest : List Utf8Unit)
    (h : v ≠ .char '\n') :
    stringTail.ways (.char '\\' :: v :: rest)
      = (stringTail.ways rest).map (Match.behind [.char '\\', v])
        ++ (stringTail.ways (v :: rest)).map (Match.behind [.char '\\']) := by
  have htwo := ways_inString_pair rest h
  rw [stringTail, ways_star_seq _ (by simp [htwo]), htwo]
  simp [ways]

/-- One move of the search for the end of a string: a pair is taken together,
and any other character but a quote alone. -/
inductive Move : List Utf8Unit → List Utf8Unit → Prop
  | pair {u : Utf8Unit} {rest : List Utf8Unit} (h : u ≠ .char '\n') :
      Move (.char '\\' :: u :: rest) rest
  | alone {u : Utf8Unit} {rest : List Utf8Unit} (hquote : u ≠ .char '"')
      (halone : StandsAlone u rest) : Move (u :: rest) rest

abbrev Reaches : List Utf8Unit → List Utf8Unit → Prop :=
  Relation.ReflTransGen Move

theorem Move.length_lt {us vs : List Utf8Unit} (h : Move us vs) :
    vs.length < us.length := by
  cases h with
  | pair _ => simp
  | alone _ _ => simp

/-- Only a quote, or the end, stops the search. -/
theorem exists_move (us : List Utf8Unit) :
    us = [] ∨ (∃ after, us = .char '"' :: after) ∨ ∃ vs, Move us vs := by
  match us with
  | [] => exact Or.inl rfl
  | u :: rest =>
      right
      by_cases hquote : u = .char '"'
      · exact Or.inl ⟨rest, by rw [hquote]⟩
      · right
        by_cases halone : StandsAlone u rest
        · exact ⟨rest, .alone hquote halone⟩
        · simp only [StandsAlone, not_forall] at halone
          obtain ⟨rfl, v, hv, hline⟩ := halone
          obtain ⟨rest, rfl⟩ := List.head?_eq_some_iff.mp hv
          exact ⟨rest, .pair hline⟩

/-- Taking pairs together, one comes to a quote or to the end. -/
theorem reaches_end_or_quote (us : List Utf8Unit) :
    Reaches us [] ∨ ∃ after, Reaches us (.char '"' :: after) := by
  induction hn : us.length using Nat.strongRecOn generalizing us with
  | ind n ih =>
      rcases exists_move us with rfl | ⟨after, rfl⟩ | ⟨vs, hmove⟩
      · exact Or.inl .refl
      · exact Or.inr ⟨after, .refl⟩
      · rcases ih vs.length (hn ▸ hmove.length_lt) vs rfl
          with hend | ⟨after, hquote⟩
        · exact Or.inl (.head hmove hend)
        · exact Or.inr ⟨after, .head hmove hquote⟩

/-- Without a quote there is no way to end. -/
theorem ways_stringTail_eq_nil {us : List Utf8Unit} (h : .char '"' ∉ us) :
    stringTail.ways us = [] := by
  induction hn : us.length using Nat.strongRecOn generalizing us with
  | ind n ih =>
      rcases exists_move us with rfl | ⟨after, rfl⟩ | ⟨vs, hmove⟩
      · exact ways_stringTail_nil
      · simp at h
      · cases hmove with
        | @pair u _ hline =>
            have hnext : .char '"' ∉ u :: vs :=
              fun hmem => h (List.mem_cons_of_mem _ hmem)
            have hrest : .char '"' ∉ vs :=
              fun hmem => hnext (List.mem_cons_of_mem _ hmem)
            rw [ways_stringTail_pair vs hline, ih _ (by simp [← hn]) hrest rfl,
              ih _ (by simp [← hn]) hnext rfl]
            rfl
        | alone hquote halone =>
            have hrest : .char '"' ∉ vs :=
              fun hmem => h (List.mem_cons_of_mem _ hmem)
            rw [ways_stringTail_alone hquote halone,
              ih _ (by simp [← hn]) hrest rfl]
            rfl

/-- The first quote that the search meets is where the first match ends. -/
theorem head?_of_reaches {us after : List Utf8Unit}
    (h : Reaches us (.char '"' :: after)) :
    ∃ inner, us = inner ++ .char '"' :: after
      ∧ (stringTail.ways us).head? = some ⟨inner ++ [.char '"'], after⟩ := by
  induction h using Relation.ReflTransGen.head_induction_on with
  | refl => exact ⟨[], rfl, by rw [ways_stringTail_quote]; rfl⟩
  | head hmove _ ih =>
      obtain ⟨inner, rfl, hhead⟩ := ih
      cases hmove with
      | @pair u rest hline =>
          refine ⟨.char '\\' :: u :: inner, rfl, ?_⟩
          rw [ways_stringTail_pair _ hline, List.head?_append,
            List.head?_map, hhead]
          rfl
      | @alone u rest hquote halone =>
          refine ⟨u :: inner, rfl, ?_⟩
          rw [ways_stringTail_alone hquote halone, List.head?_map, hhead]
          rfl

/-- When the search meets no quote, the first match ends at the last quote of
all: every pair in front of it can be kept together, but for one that ends with
this quote. -/
theorem head?_of_last {front after : List Utf8Unit}
    (h : ∀ after',
      ¬ Reaches (front ++ .char '"' :: after) (.char '"' :: after'))
    (hafter : .char '"' ∉ after) :
    (stringTail.ways (front ++ .char '"' :: after)).head?
      = some ⟨front ++ [.char '"'], after⟩ := by
  induction front using List.twoStepInduction with
  | nil => exact absurd .refl (h after)
  | singleton u =>
      rw [List.singleton_append] at h ⊢
      rcases exists_move (u :: .char '"' :: after)
        with hnil | ⟨_, hquote⟩ | ⟨vs, hmove⟩
      · simp at hnil
      · rw [hquote] at h
        exact absurd .refl (h _)
      · cases hmove with
        | pair hline =>
            rw [ways_stringTail_pair after hline, ways_stringTail_eq_nil hafter,
              ways_stringTail_quote]
            rfl
        | alone hquote halone =>
            exact absurd (.single (.alone hquote halone)) (h after)
  | cons_cons u v front ih ih' =>
      rw [List.cons_append, List.cons_append] at h ⊢
      rcases exists_move (u :: v :: (front ++ .char '"' :: after)) with
        hnil | ⟨_, hquote⟩ | ⟨vs, hmove⟩
      · simp at hnil
      · rw [hquote] at h
        exact absurd .refl (h _)
      · cases hmove with
        | pair hline =>
            have hhead :=
              ih fun after' hreach => h after' (.head (.pair hline) hreach)
            rw [ways_stringTail_pair _ hline, List.head?_append,
              List.head?_map, hhead]
            rfl
        | alone hquote halone =>
            have hhead := ih' v fun after' hreach =>
              h after' (.head (.alone hquote halone) hreach)
            rw [List.cons_append] at hhead
            rw [ways_stringTail_alone hquote halone, List.head?_map, hhead]
            rfl

end Pattern

end FeatureGate
