import Mathlib
import FeatureGate.Proofs.LintMeaning
import FeatureGate.Proofs.ReadOnce

/-!
Polarity. An atom is live where evaluation gets to it, and the number of
negations above it says whether it speaks for the condition or against it. A
condition that holds goes on to hold when no atom that spoke for it is lost and
none that speaks against it is gained.
-/

namespace FeatureGate

open CompileOptions

namespace Term

/-- The atom stands below nothing but conjunctions, disjunctions and negations
of one condition, `n` of them negations. -/
inductive Live : Term → EdgeTarget → (n : Nat) → Prop
  | test : Live (.ident Vocabulary.test) .test 0
  | feature (value : Bytes) :
      Live (.keyValue Vocabulary.feature value) (.feature value) 0
  | not {t : Term} {atom : EdgeTarget} {n : Nat} (h : Live t atom n) :
      Live (.call Vocabulary.not [t]) atom (n + 1)
  | all {ts : List Term} {t : Term} {atom : EdgeTarget} {n : Nat} (ht : t ∈ ts)
      (h : Live t atom n) : Live (.call Vocabulary.all ts) atom n
  | any {ts : List Term} {t : Term} {atom : EdgeTarget} {n : Nat} (ht : t ∈ ts)
      (h : Live t atom n) : Live (.call Vocabulary.any ts) atom n

/-- Going from the first options to the second, no atom that speaks for the
condition is lost, and none that speaks against it is gained. -/
structure Favours (t : Term) (o o' : CompileOptions) : Prop where
  positive : ∀ atom n, t.Live atom n → Even n → o.holds atom = true →
    o'.holds atom = true
  negative : ∀ atom n, t.Live atom n → Odd n → o'.holds atom = true →
    o.holds atom = true

theorem live_ident_iff {name : Bytes} {atom : EdgeTarget} {n : Nat} :
    Live (.ident name) atom n ↔ name = Vocabulary.test ∧ atom = .test ∧
      n = 0 := by
  constructor
  · intro h
    cases h
    exact ⟨rfl, rfl, rfl⟩
  · rintro ⟨rfl, rfl, rfl⟩
    exact .test

theorem live_keyValue_iff {key value : Bytes} {atom : EdgeTarget} {n : Nat} :
    Live (.keyValue key value) atom n ↔
      key = Vocabulary.feature ∧ atom = .feature value ∧ n = 0 := by
  constructor
  · intro h
    cases h
    exact ⟨rfl, rfl, rfl⟩
  · rintro ⟨rfl, rfl, rfl⟩
    exact .feature value

/-- A negation changes the count by one, and other functions do not. -/
theorem live_call_iff {name : Bytes} {args : List Term} {atom : EdgeTarget}
    {n : Nat} :
    Live (.call name args) atom n ↔
      (name = Vocabulary.not ∧ ∃ t m, args = [t] ∧ n = m + 1 ∧ t.Live atom m) ∨
        (name = Vocabulary.all ∨ name = Vocabulary.any) ∧
          ∃ t ∈ args, t.Live atom n := by
  constructor
  · intro h
    cases h with
    | not h => exact Or.inl ⟨rfl, _, _, rfl, rfl, h⟩
    | all ht h => exact Or.inr ⟨Or.inl rfl, _, ht, h⟩
    | any ht h => exact Or.inr ⟨Or.inr rfl, _, ht, h⟩
  · rintro (⟨rfl, t, m, rfl, rfl, h⟩ | ⟨rfl | rfl, t, ht, h⟩)
    · exact .not h
    · exact .all ht h
    · exact .any ht h

theorem not_live_hole {atom : EdgeTarget} {n : Nat} : ¬ Live .hole atom n := by
  intro h
  cases h

/-- Below a negation the options change places. -/
theorem Favours.of_not {t : Term} {o o' : CompileOptions}
    (h : Favours (.call Vocabulary.not [t]) o o') : t.Favours o' o := by
  constructor
  · intro atom n hlive heven
    exact h.negative atom (n + 1) (.not hlive) heven.add_one
  · intro atom n hlive hodd
    exact h.positive atom (n + 1) (.not hlive) hodd.add_one

theorem Favours.of_mem {name : Bytes} {ts : List Term} {o o' : CompileOptions}
    (h : Favours (.call name ts) o o')
    (hname : name = Vocabulary.all ∨ name = Vocabulary.any) {t : Term}
    (ht : t ∈ ts) : t.Favours o o' := by
  have hlive : ∀ {atom n}, t.Live atom n → Live (.call name ts) atom n :=
    fun hlive =>
      live_call_iff.mpr (Or.inr ⟨hname, t, ht, hlive⟩)
  constructor
  · intro atom n h'
    exact h.positive atom n (hlive h')
  · intro atom n h'
    exact h.negative atom n (hlive h')

theorem evalAll_mono {o o' : CompileOptions} {ts : List Term}
    (h : ∀ t ∈ ts, t.eval o = true → t.eval o' = true)
    (hall : evalAll o ts = true) :
    evalAll o' ts = true := by
  rw [evalAll_eq_all, List.all_eq_true] at hall ⊢
  intro t ht
  exact h t ht (hall t ht)

theorem evalAny_mono {o o' : CompileOptions} {ts : List Term}
    (h : ∀ t ∈ ts, t.eval o = true → t.eval o' = true)
    (hany : evalAny o ts = true) :
    evalAny o' ts = true := by
  rw [evalAny_eq_any, List.any_eq_true] at hany ⊢
  obtain ⟨t, ht, hold⟩ := hany
  exact ⟨t, ht, h t ht hold⟩

/-- Negation turns the order around. -/
theorem evalNot_anti {o o' : CompileOptions} {args : List Term}
    (h : ∀ t, args = [t] → t.eval o' = true → t.eval o = true)
    (hnot : evalNot o args = true) :
    evalNot o' args = true := by
  by_cases hlength : args.length = 1
  · obtain ⟨t, rfl⟩ := List.length_eq_one_iff.mp hlength
    rw [evalNot, Bool.not_eq_true'] at hnot ⊢
    by_contra hne
    rw [Bool.not_eq_false] at hne
    rw [h t rfl hne] at hnot
    exact Bool.noConfusion hnot
  · rw [evalNot_of_length_ne hlength] at hnot
    exact Bool.noConfusion hnot

/-- Evaluation is monotone by polarity. Both options are generalised, as a
negation swaps them. -/
theorem Favours.eval {t : Term} {o o' : CompileOptions} (h : t.Favours o o')
    (hold : t.eval o = true) : t.eval o' = true := by
  induction t generalizing o o' with
  | ident name =>
      simp only [Term.eval, Bool.and_eq_true, decide_eq_true_eq] at hold ⊢
      refine ⟨hold.1, ?_⟩
      have hlive : Live (.ident name) .test 0 :=
        live_ident_iff.mpr ⟨hold.1, rfl, rfl⟩
      exact h.positive .test 0 hlive Even.zero hold.2
  | keyValue key value =>
      simp only [Term.eval, Bool.and_eq_true, decide_eq_true_eq] at hold ⊢
      refine ⟨hold.1, ?_⟩
      have hlive : Live (.keyValue key value) (.feature value) 0 :=
        live_keyValue_iff.mpr ⟨hold.1, rfl, rfl⟩
      exact h.positive (.feature value) 0 hlive Even.zero hold.2
  | call name args ih =>
      rw [eval_call] at hold ⊢
      by_cases hnot : name = Vocabulary.not
      · subst hnot
        rw [if_pos rfl] at hold ⊢
        refine evalNot_anti ?_ hold
        rintro t rfl
        exact ih t List.mem_cons_self h.of_not
      · rw [if_neg hnot] at hold ⊢
        by_cases hall : name = Vocabulary.all
        · rw [if_pos hall] at hold ⊢
          exact evalAll_mono
            (fun t ht => ih t ht (h.of_mem (Or.inl hall) ht)) hold
        · rw [if_neg hall] at hold ⊢
          by_cases hany : name = Vocabulary.any
          · rw [if_pos hany] at hold ⊢
            exact evalAny_mono
              (fun t ht => ih t ht (h.of_mem (Or.inr hany) ht)) hold
          · rw [if_neg hany] at hold
            exact Bool.noConfusion hold
  | hole => exact hold

/-- Without negations no atom stands below one. -/
theorem Live.eq_zero {t : Term} {atom : EdgeTarget} {n : Nat}
    (h : t.Live atom n)
    (hnot : ∀ args, .call Vocabulary.not args ∉ t.subterms) : n = 0 := by
  have hbelow : ∀ {name : Bytes} {ts : List Term} {t : Term}, t ∈ ts →
      (∀ args, .call Vocabulary.not args ∉ subterms (.call name ts)) →
        ∀ args, .call Vocabulary.not args ∉ t.subterms := by
    intro name ts t ht hnot args hmem
    exact hnot args (mem_subterms.mpr (Or.inr ⟨t, ht, hmem⟩))
  induction h with
  | test => rfl
  | feature value => rfl
  | not h ih => exact absurd (mem_subterms.mpr (Or.inl rfl)) (hnot _)
  | all ht h ih => exact ih (hbelow ht hnot)
  | any ht h ih => exact ih (hbelow ht hnot)

end Term

namespace CompileOptions

/-- What holds under the first options holds under the second. -/
def AtMost (o o' : CompileOptions) : Prop :=
  ∀ atom, o.holds atom = true → o'.holds atom = true

theorem atMost_enable (o : CompileOptions) (name : Bytes) :
    o.AtMost (o.enable name) := by
  intro atom hold
  cases atom with
  | feature other =>
      change (o.enable name).hasFeature other = true
      rw [hasFeature_enable, Bool.or_eq_true]
      exact Or.inr hold
  | test => exact hold

theorem atMost_setTest (o : CompileOptions) : o.AtMost (o.setTest true) := by
  intro atom hold
  cases atom with
  | feature other => exact hold
  | test => rfl

theorem disable_atMost (o : CompileOptions) (name : Bytes) :
    (o.disable name).AtMost o := by
  intro atom hold
  cases atom with
  | feature other =>
      change (o.disable name).hasFeature other = true at hold
      rw [hasFeature_disable, Bool.and_eq_true] at hold
      exact hold.2
  | test => exact hold

end CompileOptions

/-- No condition of the attributes is a negation, at any depth and of any number
of conditions. -/
def NegationFree (attrs : List Attribute) : Prop :=
  ∀ args, .call Vocabulary.not args ∉ Term.subtermsOfList
    (attrs.flatMap Attribute.conditions)

/-- Without negations more features and test mode never exclude an item. -/
theorem NegationFree.shouldInclude {attrs : List Attribute}
    (h : NegationFree attrs) {o o' : CompileOptions} (hle : o.AtMost o')
    (hold : shouldInclude attrs o = true) :
    shouldInclude attrs o' = true := by
  rw [shouldInclude_eq_evalAll] at hold ⊢
  refine Term.evalAll_mono (fun t ht => ?_) hold
  have hzero : ∀ atom n, t.Live atom n → n = 0 := fun atom n hlive =>
    hlive.eq_zero fun args hmem =>
      h args (Term.mem_subtermsOfList.mpr ⟨t, ht, hmem⟩)
  apply Term.Favours.eval
  constructor
  · intro atom n _ _
    exact hle atom
  · intro atom n hlive hodd
    rw [hzero atom n hlive] at hodd
    exact absurd hodd (by decide)

/-- A condition that holds goes on to hold as long as no atom under an even
number of negations is lost and none under an odd number is gained. So without
negations, to enable a feature or to switch the test mode on never excludes an
item, and to disable a feature never includes one. -/
theorem evaluation_follows_polarity :
    (∀ (t : Term) (o o' : CompileOptions),
      t.Favours o o' → t.eval o = true → t.eval o' = true) ∧
    ∀ (attrs : List Attribute) (o : CompileOptions), NegationFree attrs →
      (∀ name, shouldInclude attrs o = true →
        shouldInclude attrs (o.enable name) = true)
        ∧ (shouldInclude attrs o = true →
          shouldInclude attrs (o.setTest true) = true)
        ∧ ∀ name, shouldInclude attrs o = false →
          shouldInclude attrs (o.disable name) = false := by
  constructor
  · intro t o o' h hold
    exact h.eval hold
  · intro attrs o h
    refine ⟨?_, ?_, ?_⟩
    · intro name hold
      exact h.shouldInclude (atMost_enable o name) hold
    · intro hold
      exact h.shouldInclude (atMost_setTest o) hold
    · intro name hfalse
      by_contra hne
      rw [Bool.not_eq_false] at hne
      rw [h.shouldInclude (disable_atMost o name) hne] at hfalse
      exact Bool.noConfusion hfalse

/-- The condition `all(not(any(feature = "a", not(feature = "b"))),
any(near(test), not(test, test), feature = "c", ))`, in which no occurrence of
the test predicate is live. -/
def deadTestTerm : Term :=
  .call Vocabulary.all [
    .call Vocabulary.not [.call Vocabulary.any
      [.keyValue Vocabulary.feature (utf8 "a"),
        .call Vocabulary.not [.keyValue Vocabulary.feature (utf8 "b")]]],
    .call Vocabulary.any [.call (utf8 "near") [.ident Vocabulary.test],
      .call Vocabulary.not [.ident Vocabulary.test, .ident Vocabulary.test],
      .keyValue Vocabulary.feature (utf8 "c"), .hole]]

/-- The attributes `#[cfg(any(test, feature = "x"))]` and
`#[doc(not(test))]`. -/
def testOrFeatureAttrs : List Attribute :=
  [⟨Vocabulary.cfg, .paren [.call Vocabulary.any [.ident Vocabulary.test,
      .keyValue Vocabulary.feature (utf8 "x")]], {}⟩,
    ⟨utf8 "doc", .paren [.call Vocabulary.not [.ident Vocabulary.test]], {}⟩]

/-- The test predicate is mentioned but live nowhere, so the test mode may
change. -/
theorem evaluation_follows_polarity_dead_test :
    deadTestTerm.Favours (.withFeatures [utf8 "b", utf8 "c"])
      (.forTesting [utf8 "b", utf8 "c"])
      ∧ deadTestTerm.eval (.withFeatures [utf8 "b", utf8 "c"]) = true
      ∧ deadTestTerm.eval (.forTesting [utf8 "b", utf8 "c"]) = true
      ∧ NegationFree testOrFeatureAttrs
      ∧ shouldInclude testOrFeatureAttrs (.withFeatures [utf8 "x"]) = true
      ∧ shouldInclude testOrFeatureAttrs
        ((withFeatures [utf8 "x"]).enable (utf8 "y")) = true
      ∧ shouldInclude testOrFeatureAttrs
        ((withFeatures [utf8 "x"]).setTest true) = true
      ∧ shouldInclude testOrFeatureAttrs (.withFeatures [utf8 "y"]) = false
      ∧ shouldInclude testOrFeatureAttrs
        ((withFeatures [utf8 "y"]).disable (utf8 "y")) = false := by
  have hlive : ∀ {atom n}, deadTestTerm.Live atom n →
      (atom, n) = (.feature (utf8 "a"), 1)
        ∨ (atom, n) = (.feature (utf8 "b"), 2)
        ∨ (atom, n) = (.feature (utf8 "c"), 0) := by
    intro atom n h
    simp +decide [deadTestTerm, Term.live_call_iff, Term.live_keyValue_iff,
      Term.live_ident_iff, Term.not_live_hole] at h
    grind
  have hfavours : deadTestTerm.Favours (.withFeatures [utf8 "b", utf8 "c"])
      (.forTesting [utf8 "b", utf8 "c"]) := by
    constructor
    · intro atom n h heven
      rcases hlive h with heq | heq | heq <;> cases heq
      · exact absurd heven (by decide)
      · decide +kernel
      · decide +kernel
    · intro atom n h hodd
      rcases hlive h with heq | heq | heq <;> cases heq
      · decide +kernel
      · exact absurd hodd (by decide)
      · exact absurd hodd (by decide)
  have hfree : NegationFree testOrFeatureAttrs := by
    intro args hmem
    simp +decide [testOrFeatureAttrs, Attribute.conditions, Term.subtermsOfList,
      Term.subterms] at hmem
  have hdead : deadTestTerm.eval (.withFeatures [utf8 "b", utf8 "c"]) =
      true := by decide +kernel
  have hwith :
      shouldInclude testOrFeatureAttrs (.withFeatures [utf8 "x"]) = true := by
    decide +kernel
  have hwithout :
      shouldInclude testOrFeatureAttrs (.withFeatures [utf8 "y"]) = false := by
    decide +kernel
  obtain ⟨heval, hattrs⟩ := evaluation_follows_polarity
  obtain ⟨henable, htest, -⟩ :=
    hattrs testOrFeatureAttrs (.withFeatures [utf8 "x"]) hfree
  obtain ⟨-, -, hdisable⟩ :=
    hattrs testOrFeatureAttrs (.withFeatures [utf8 "y"]) hfree
  exact ⟨hfavours, hdead, heval _ _ _ hfavours hdead, hfree, hwith,
    henable (utf8 "y") hwith, htest hwith, hwithout,
    hdisable (utf8 "y") hwithout⟩

end FeatureGate
