import Mathlib
import FeatureGate.Proofs.LintMeaning

/-!
Spellings of a condition. The laws of negation, conjunction and disjunction may
be applied at any depth, also below functions that are not known, and the
conditions of an item may be divided among its attributes in any way: no
decision depends on it.
-/

namespace FeatureGate

namespace Term

/-- The functions of any number of conditions, each with the one that negation
turns it into. -/
inductive Junction : (name dual : Bytes) → Prop
  | all : Junction Vocabulary.all Vocabulary.any
  | any : Junction Vocabulary.any Vocabulary.all

/-- The laws by which a whole condition may be spelled in another way. -/
inductive Respelled : Term → Term → Prop
  | notNot
      (t : Term) : Respelled (.call Vocabulary.not [.call Vocabulary.not [t]]) t
  | notJunction {name dual : Bytes} (h : Junction name dual) (ts : List Term) :
      Respelled (.call Vocabulary.not [.call name ts])
        (.call dual (ts.map fun t => .call Vocabulary.not [t]))
  | flatten {name dual : Bytes} (h : Junction name dual)
      (before ts after : List Term) :
      Respelled (.call name (before ++ .call name ts :: after))
        (.call name (before ++ ts ++ after))
  | reorder {name dual : Bytes} (h : Junction name dual) {ts us : List Term}
      (hperm : ts.Perm us) :
      Respelled (.call name ts) (.call name us)
  | duplicate {name dual : Bytes} (h : Junction name dual) {t : Term}
      {ts : List Term}
      (ht : t ∈ ts) : Respelled (.call name (t :: ts)) (.call name ts)

/-- The least equivalence that contains the laws and in which one argument of
any call may be replaced. -/
inductive Equivalent : Term → Term → Prop
  | law {t u : Term} (h : Respelled t u) : Equivalent t u
  | refl (t : Term) : Equivalent t t
  | symm {t u : Term} (h : Equivalent t u) : Equivalent u t
  | trans {t u v : Term} (h : Equivalent t u)
      (h' : Equivalent u v) : Equivalent t v
  | arg (name : Bytes) (before after : List Term) {t u : Term}
      (h : Equivalent t u) :
      Equivalent (.call name (before ++ t :: after))
        (.call name (before ++ u :: after))

section Laws

variable (o : CompileOptions)

@[simp] theorem eval_not (t : Term) :
    eval o (.call Vocabulary.not [t]) = !t.eval o := by
  rw [eval_call, if_pos rfl, evalNot]

@[simp] theorem eval_all (ts : List Term) :
    eval o (.call Vocabulary.all ts) = ts.all fun t => t.eval o := by
  rw [eval_call, if_neg Vocabulary.all_ne_not, if_pos rfl, evalAll_eq_all]

@[simp] theorem eval_any (ts : List Term) :
    eval o (.call Vocabulary.any ts) = ts.any fun t => t.eval o := by
  rw [eval_call, if_neg Vocabulary.any_ne_not, if_neg Vocabulary.any_ne_all,
    if_pos rfl, evalAny_eq_any]

/-- Negation can be moved inside, and turns the function around. -/
theorem eval_not_junction {name dual : Bytes} (h : Junction name dual)
    (ts : List Term) :
    eval o (.call Vocabulary.not [.call name ts])
      = eval o (.call dual (ts.map fun t => .call Vocabulary.not [t])) := by
  cases h with
  | all => simp [List.not_all_eq_any_not, Function.comp_def]
  | any => simp [List.not_any_eq_all_not, Function.comp_def]

/-- A function inside of itself can be unfolded. -/
theorem eval_flatten {name dual : Bytes} (h : Junction name dual)
    (before ts after : List Term) :
    eval o (.call name (before ++ .call name ts :: after))
      = eval o (.call name (before ++ ts ++ after)) := by
  cases h with
  | all => simp
  | any => simp

theorem eval_reorder {name dual : Bytes} (h : Junction name dual)
    {ts us : List Term} (hperm : ts.Perm us) :
    eval o (.call name ts) = eval o (.call name us) := by
  cases h with
  | all => rw [eval_all, eval_all, hperm.all_eq]
  | any => rw [eval_any, eval_any, hperm.any_eq]

theorem eval_duplicate {name dual : Bytes} (h : Junction name dual) {t : Term}
    {ts : List Term} (ht : t ∈ ts) :
    eval o (.call name (t :: ts)) = eval o (.call name ts) := by
  cases h with
  | all =>
      rw [eval_all, eval_all, List.all_cons, Bool.and_eq_right_iff_imp,
        List.all_eq_true]
      exact fun h => h t ht
  | any =>
      rw [eval_any, eval_any, List.any_cons, Bool.or_eq_right_iff_imp,
        List.any_eq_true]
      exact fun h => ⟨t, ht, h⟩

/-- One argument of a call may be replaced by one of the same value, whatever
the call is. -/
theorem eval_arg (name : Bytes) (before after : List Term) {t u : Term}
    (h : t.eval o = u.eval o) :
    eval o (.call name (before ++ t :: after)) =
      eval o (.call name (before ++ u :: after)) := by
  have hnot :
      evalNot o (before ++ t :: after) = evalNot o (before ++ u :: after) := by
    by_cases hlength : before.length + after.length = 0
    · obtain ⟨hbefore, hafter⟩ := Nat.add_eq_zero_iff.mp hlength
      rw [List.eq_nil_of_length_eq_zero hbefore,
        List.eq_nil_of_length_eq_zero hafter]
      simp [evalNot, h]
    · have hne : ∀ v : Term, (before ++ v :: after).length ≠ 1 := by
        intro v
        rw [List.length_append, List.length_cons]
        omega
      rw [evalNot_of_length_ne (hne t), evalNot_of_length_ne (hne u)]
  have hall :
      evalAll o (before ++ t :: after) = evalAll o (before ++ u :: after) := by
    simp [evalAll_eq_all, h]
  have hany :
      evalAny o (before ++ t :: after) = evalAny o (before ++ u :: after) := by
    simp [evalAny_eq_any, h]
  rw [eval_call, eval_call, hnot, hall, hany]

end Laws

/-- One rule applied at one place keeps the value. -/
theorem Respelled.eval_eq {t u : Term} (h : Respelled t u)
    (o : CompileOptions) :
    t.eval o = u.eval o := by
  cases h with
  | notNot => simp
  | notJunction h ts => exact eval_not_junction o h ts
  | flatten h before ts after => exact eval_flatten o h before ts after
  | reorder h hperm => exact eval_reorder o h hperm
  | duplicate h ht => exact eval_duplicate o h ht

/-- Any number of rules keep the value. -/
theorem Equivalent.eval_eq {t u : Term} (h : Equivalent t u)
    (o : CompileOptions) :
    t.eval o = u.eval o := by
  induction h with
  | law h => exact h.eval_eq o
  | refl t => rfl
  | symm h ih => exact ih.symm
  | trans h h' ih ih' => exact ih.trans ih'
  | arg name before after h ih => exact eval_arg o name before after ih

/-- Conjunctions in a list of conditions are replaced by their parts: any number
of them, also among the parts that come up. -/
inductive Unfolds : List Term → List Term → Prop
  | done (ts : List Term) : Unfolds ts ts
  | unfold {us : List Term} (before ts after : List Term)
      (h : Unfolds (before ++ ts ++ after) us) :
      Unfolds (before ++ .call Vocabulary.all ts :: after) us

theorem Unfolds.evalAll_eq {ts us : List Term} (h : Unfolds ts us)
    (o : CompileOptions) :
    evalAll o ts = evalAll o us := by
  induction h with
  | done ts => rfl
  | unfold before ts after h ih =>
      rw [← ih]
      simp [evalAll_eq_all]

/-- Every condition of one list has an equivalent one in the other. -/
structure SameUpTo (ts us : List Term) : Prop where
  left : ∀ t ∈ ts, ∃ u ∈ us, t.Equivalent u
  right : ∀ u ∈ us, ∃ t ∈ ts, t.Equivalent u

theorem evalAll_of_forall_exists {o : CompileOptions} {ts us : List Term}
    (h : ∀ u ∈ us, ∃ t ∈ ts, t.eval o = u.eval o) (hall : evalAll o ts = true) :
    evalAll o us = true := by
  rw [evalAll_eq_all, List.all_eq_true] at hall ⊢
  intro u hu
  obtain ⟨t, ht, heq⟩ := h u hu
  rw [← heq]
  exact hall t ht

/-- Order, repetition and spelling of the parts make no difference. -/
theorem SameUpTo.evalAll_eq {ts us : List Term} (h : SameUpTo ts us)
    (o : CompileOptions) :
    evalAll o ts = evalAll o us := by
  rw [Bool.eq_iff_iff]
  constructor
  · apply evalAll_of_forall_exists
    intro u hu
    obtain ⟨t, ht, heq⟩ := h.right u hu
    exact ⟨t, ht, heq.eval_eq o⟩
  · apply evalAll_of_forall_exists
    intro t ht
    obtain ⟨u, hu, heq⟩ := h.left t ht
    exact ⟨u, hu, (heq.eval_eq o).symm⟩

end Term

/-- Equivalent conditions have the same value under all options. And two lists
of attributes decide the same if, with top-level conjunctions unfolded, their
conditions are the same up to equivalence. -/
theorem spellings_interchangeable :
    (∀ t u : Term, t.Equivalent u → ∀ o, t.eval o = u.eval o) ∧
    ∀ (attrs attrs' : List Attribute) (ts ts' : List Term),
      Term.Unfolds (attrs.flatMap Attribute.conditions) ts →
      Term.Unfolds (attrs'.flatMap Attribute.conditions) ts' →
        Term.SameUpTo ts ts' →
        ∀ o, shouldInclude attrs o = shouldInclude attrs' o := by
  constructor
  · intro t u h o
    exact h.eval_eq o
  · intro attrs attrs' ts ts' hts hts' hsame o
    calc shouldInclude attrs o
        = Term.evalAll o (attrs.flatMap Attribute.conditions) :=
          shouldInclude_eq_evalAll attrs o
      _ = Term.evalAll o ts := hts.evalAll_eq o
      _ = Term.evalAll o ts' := hsame.evalAll_eq o
      _ = Term.evalAll o (attrs'.flatMap Attribute.conditions) :=
        (hts'.evalAll_eq o).symm
      _ = shouldInclude attrs' o := (shouldInclude_eq_evalAll attrs' o).symm

/-- The condition `not(all(near(not(not(test)), ), feature = "x"))`, where
`near` is no known function and its second condition is missing. -/
def negatedTerm : Term :=
  .call Vocabulary.not [.call Vocabulary.all [
    .call (utf8 "near")
      [.call Vocabulary.not [.call Vocabulary.not [.ident Vocabulary.test]],
        .hole],
    .keyValue Vocabulary.feature (utf8 "x")]]

/-- The condition `any(not(feature = "x"), not(near(test, )))`. -/
def dividedTerm : Term :=
  .call Vocabulary.any [
    .call Vocabulary.not [.keyValue Vocabulary.feature (utf8 "x")],
    .call Vocabulary.not
      [.call (utf8 "near") [.ident Vocabulary.test, .hole]]]

theorem negatedTerm_equivalent : negatedTerm.Equivalent dividedTerm := by
  have hinner : Term.Equivalent
      (.call (utf8 "near")
        [.call Vocabulary.not [.call Vocabulary.not [.ident Vocabulary.test]],
          .hole])
      (.call (utf8 "near") [.ident Vocabulary.test, .hole]) :=
    .arg (utf8 "near") [] [.hole] (.law (.notNot (.ident Vocabulary.test)))
  have houter := Term.Equivalent.arg Vocabulary.not [] []
    (.arg Vocabulary.all [] [.keyValue Vocabulary.feature (utf8 "x")] hinner)
  exact houter.trans ((Term.Equivalent.law (.notJunction .all _)).trans
    (.law (.reorder .any (List.Perm.swap _ _ []))))

/-- The attribute `#[cfg(all(test, all(feature = "y", test)),
not(all(...)))]`. -/
def conjoinedAttrs : List Attribute :=
  [⟨Vocabulary.cfg, .paren [
    .call Vocabulary.all [.ident Vocabulary.test,
      .call Vocabulary.all [.keyValue Vocabulary.feature (utf8 "y"),
        .ident Vocabulary.test]],
    negatedTerm], {}⟩]

/-- The same conditions in three attributes, and others between them. -/
def scatteredAttrs : List Attribute :=
  [⟨utf8 "doc", .eq (utf8 "text"), {}⟩,
    ⟨Vocabulary.cfg, .paren [dividedTerm], {}⟩, ⟨Vocabulary.cfg, .none, {}⟩,
    ⟨Vocabulary.cfg, .paren [.keyValue Vocabulary.feature (utf8 "y")], {}⟩,
    ⟨Vocabulary.cfg, .paren [.ident Vocabulary.test], {}⟩]

/-- What is left of the conditions when the conjunctions are unfolded. -/
def conjoinedParts : List Term :=
  [.ident Vocabulary.test, .keyValue Vocabulary.feature (utf8 "y"),
    .ident Vocabulary.test, negatedTerm]

def scatteredParts : List Term :=
  [dividedTerm, .keyValue Vocabulary.feature (utf8 "y"), .ident Vocabulary.test]

/-- A negation moved inside, and conditions scattered over three attributes. -/
theorem spellings_interchangeable_scattered :
    negatedTerm.Equivalent dividedTerm
      ∧ (∀ o, negatedTerm.eval o = dividedTerm.eval o)
      ∧ Term.Unfolds (conjoinedAttrs.flatMap Attribute.conditions)
        conjoinedParts
      ∧ Term.Unfolds (scatteredAttrs.flatMap Attribute.conditions)
        scatteredParts
      ∧ Term.SameUpTo conjoinedParts scatteredParts
      ∧ ∀ o, shouldInclude conjoinedAttrs o =
        shouldInclude scatteredAttrs o := by
  have hconjoined : Term.Unfolds (conjoinedAttrs.flatMap Attribute.conditions)
      conjoinedParts := by
    refine .unfold [] [.ident Vocabulary.test, .call Vocabulary.all
      [.keyValue Vocabulary.feature (utf8 "y"),
        .ident Vocabulary.test]] [negatedTerm] ?_
    refine .unfold [.ident Vocabulary.test]
      [.keyValue Vocabulary.feature (utf8 "y"),
        .ident Vocabulary.test] [negatedTerm] ?_
    exact .done _
  have hscattered : Term.Unfolds (scatteredAttrs.flatMap Attribute.conditions)
      scatteredParts :=
    .done _
  have hsame : Term.SameUpTo conjoinedParts scatteredParts := by
    constructor
    · simp only [conjoinedParts, scatteredParts, List.forall_mem_cons,
        List.exists_mem_cons_iff]
      exact ⟨.inr (.inr (.inl (.refl _))), .inr (.inl (.refl _)),
        .inr (.inr (.inl (.refl _))), .inl negatedTerm_equivalent, by simp⟩
    · simp only [conjoinedParts, scatteredParts, List.forall_mem_cons,
        List.exists_mem_cons_iff]
      exact ⟨.inr (.inr (.inr (.inl negatedTerm_equivalent))),
        .inr (.inl (.refl _)), .inl (.refl _), by simp⟩
  exact ⟨negatedTerm_equivalent,
    spellings_interchangeable.1 _ _ negatedTerm_equivalent, hconjoined,
    hscattered, hsame,
    spellings_interchangeable.2 _ _ _ _ hconjoined hscattered hsame⟩

end FeatureGate
