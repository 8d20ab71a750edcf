import Mathlib
import FeatureGate.FeatureGraph
import FeatureGate.Plan

/-!
What decisions depend on. Evaluation looks at no feature that the graph does not
list for the item, and at the test mode only where the graph has an edge to the
test predicate.
-/

namespace FeatureGate

namespace CompileOptions

/-- The options answer alike about the listed features, and about the test mode
if asked. -/
def AgreeOn (names : List Bytes) (test : Bool)
    (o₁ o₂ : CompileOptions) : Prop :=
  (∀ name ∈ names, o₁.hasFeature name = o₂.hasFeature name) ∧
    (test = true → o₁.test = o₂.test)

/-- The options with their features cut down to the listed names. -/
def restrict (o : CompileOptions) (names : List Bytes) : CompileOptions :=
  { o with
    features := ⟨o.features.names.filter names.contains,
      o.features.ascending.filter _⟩ }

@[simp] theorem hasFeature_restrict (o : CompileOptions) (names : List Bytes)
    (name : Bytes) :
    (o.restrict names).hasFeature name =
      (decide (name ∈ names) && o.hasFeature name) := by
  have hmem : name ∈ (o.restrict names).features ↔
      name ∈ names ∧ name ∈ o.features := by
    change name ∈ o.features.names.filter names.contains ↔
      name ∈ names ∧ name ∈ o.features.names
    simp [and_comm]
  simp [hasFeature, hmem]

theorem hasFeature_foldl_disable (o : CompileOptions) {names : List Bytes}
    {name : Bytes} (h : name ∉ names) :
    (names.foldl disable o).hasFeature name = o.hasFeature name := by
  induction names generalizing o with
  | nil => rfl
  | cons other names ih =>
      rw [List.mem_cons, not_or] at h
      rw [List.foldl_cons, ih (o.disable other) h.2]
      simp [h.1]

theorem test_foldl_disable (o : CompileOptions) (names : List Bytes) :
    (names.foldl disable o).test = o.test := by
  induction names generalizing o with
  | nil => rfl
  | cons other names ih => exact ih (o.disable other)

end CompileOptions

open CompileOptions

namespace Term

theorem mem_featuresOfList {ts : List Term} {name : Bytes} :
    name ∈ featuresOfList ts ↔ ∃ t ∈ ts, name ∈ t.features := by
  induction ts with
  | nil => simp [featuresOfList]
  | cons t ts ih => simp [featuresOfList, ih]

theorem anyMentionsTest_iff {ts : List Term} :
    anyMentionsTest ts = true ↔ ∃ t ∈ ts, t.mentionsTest = true := by
  induction ts with
  | nil => simp [anyMentionsTest]
  | cons t ts ih => simp [anyMentionsTest, ih]

/-- Options that agree on all that a list mentions agree on each of its
terms. -/
theorem agreeOn_of_mem {o₁ o₂ : CompileOptions} {ts : List Term}
    (h : AgreeOn (featuresOfList ts) (anyMentionsTest ts) o₁ o₂) {t : Term}
    (ht : t ∈ ts) :
    AgreeOn t.features t.mentionsTest o₁ o₂ := by
  constructor
  · intro name hname
    exact h.1 name (mem_featuresOfList.mpr ⟨t, ht, hname⟩)
  · intro htest
    exact h.2 (anyMentionsTest_iff.mpr ⟨t, ht, htest⟩)

/-- The value of a negation, which takes one condition only. -/
def evalNot (o : CompileOptions) : List Term → Bool
  | [arg] => !eval o arg
  | _ => false

theorem eval_call (o : CompileOptions) (name : Bytes) (args : List Term) :
    eval o (.call name args) =
      if name = Vocabulary.not then evalNot o args
      else if name = Vocabulary.all then evalAll o args
      else if name = Vocabulary.any then evalAny o args
      else false := by
  rw [eval.eq_def]
  rfl

theorem evalAll_eq_all (o : CompileOptions) (ts : List Term) :
    evalAll o ts = ts.all fun t => t.eval o := by
  induction ts with
  | nil => rfl
  | cons t ts ih => rw [evalAll, ih, List.all_cons]

theorem evalAny_eq_any (o : CompileOptions) (ts : List Term) :
    evalAny o ts = ts.any fun t => t.eval o := by
  induction ts with
  | nil => rfl
  | cons t ts ih => rw [evalAny, ih, List.any_cons]

theorem evalAll_congr {o₁ o₂ : CompileOptions} {ts : List Term}
    (h : ∀ t ∈ ts, t.eval o₁ = t.eval o₂) : evalAll o₁ ts = evalAll o₂ ts := by
  induction ts with
  | nil => rfl
  | cons t ts ih =>
      rw [List.forall_mem_cons] at h
      rw [evalAll, evalAll, h.1, ih h.2]

theorem evalAny_congr {o₁ o₂ : CompileOptions} {ts : List Term}
    (h : ∀ t ∈ ts, t.eval o₁ = t.eval o₂) : evalAny o₁ ts = evalAny o₂ ts := by
  induction ts with
  | nil => rfl
  | cons t ts ih =>
      rw [List.forall_mem_cons] at h
      rw [evalAny, evalAny, h.1, ih h.2]

/-- A condition depends only on what its walk collects, under known and unknown
functions alike. -/
theorem eval_congr {o₁ o₂ : CompileOptions} {t : Term}
    (h : AgreeOn t.features t.mentionsTest o₁ o₂) : t.eval o₁ = t.eval o₂ := by
  induction t with
  | ident name =>
      by_cases hname : name = Vocabulary.test
      · rw [eval, eval, h.2 (by simp [mentionsTest, hname])]
      · simp [eval, hname]
  | keyValue key value =>
      by_cases hkey : key = Vocabulary.feature
      · rw [eval, eval, h.1 value (by simp [features, hkey])]
      · simp [eval, hkey]
  | call name args ih =>
      have hargs : ∀ t ∈ args, t.eval o₁ = t.eval o₂ := by
        intro t ht
        exact ih t ht (agreeOn_of_mem h ht)
      have hnot : evalNot o₁ args = evalNot o₂ args := by
        match args with
        | [] => rfl
        | [arg] => rw [evalNot, evalNot, hargs arg List.mem_cons_self]
        | _ :: _ :: _ => rfl
      rw [eval_call, eval_call, hnot, evalAll_congr hargs, evalAny_congr hargs]
  | hole => rfl

theorem evalAll_append (o : CompileOptions) (ts us : List Term) :
    evalAll o (ts ++ us) = (evalAll o ts && evalAll o us) := by
  induction ts with
  | nil => simp [evalAll]
  | cons t ts ih => simp [evalAll, ih, Bool.and_assoc]

end Term

namespace Item

/-- An item survives when all its conditions hold. -/
theorem shouldInclude_eq_evalAll (item : Item) (o : CompileOptions) :
    shouldInclude item.attrs o = Term.evalAll o item.conditions := by
  obtain ⟨kind, name, attrs, span⟩ := item
  simp only [conditions]
  induction attrs with
  | nil => rfl
  | cons attr attrs ih =>
      rw [List.flatMap_cons, Term.evalAll_append, ← ih, shouldInclude,
        List.all_cons]
      congr 1
      by_cases hcfg : attr.isCfg = true
      · cases hargs : attr.args <;>
          simp [Attribute.conditions, hcfg, hargs, Attribute.eval, Term.evalAll]
      · simp [Attribute.conditions, hcfg, Term.evalAll]

/-- A decision depends on nothing but what the item mentions. -/
theorem make_congr {o₁ o₂ : CompileOptions} {item : Item}
    (h : AgreeOn item.features.names item.mentionsTest o₁ o₂) :
    Decision.make o₁ item = Decision.make o₂ item := by
  have hconditions :
      AgreeOn (Term.featuresOfList item.conditions)
        (Term.anyMentionsTest item.conditions)
        o₁ o₂ := by
    refine ⟨fun name hname => h.1 name ?_, h.2⟩
    exact FeatureSet.mem_ofList.mpr hname
  have hincluded :
      shouldInclude item.attrs o₁ = shouldInclude item.attrs o₂ := by
    rw [shouldInclude_eq_evalAll, shouldInclude_eq_evalAll]
    exact Term.evalAll_congr fun t ht =>
      Term.eval_congr (Term.agreeOn_of_mem hconditions ht)
  rw [Decision.make, Decision.make, hincluded]

/-- A feature that an item mentions is at the end of an edge. -/
theorem feature_mem_edges {item : Item} {name : Bytes}
    (h : name ∈ item.features.names) :
    ⟨item.node, .feature name⟩ ∈ item.edges :=
  List.mem_append_left _ (List.mem_map_of_mem h)

theorem test_mem_edges {item : Item} (h : item.mentionsTest = true) :
    ⟨item.node, .test⟩ ∈ item.edges := by
  apply List.mem_append_right
  simp [h]

end Item

namespace FeatureGraph

/-- Two options that differ in nothing to which the graph has an edge from the
node. -/
def AgreeAt (graph : FeatureGraph) (node : Bytes)
    (o₁ o₂ : CompileOptions) : Prop :=
  (∀ name, ⟨node, .feature name⟩ ∈ graph.edges →
    o₁.hasFeature name = o₂.hasFeature name) ∧
    (⟨node, .test⟩ ∈ graph.edges → o₁.test = o₂.test)

/-- Options that agree along the edges of an item decide alike about it. -/
theorem make_eq_of_agreeAt {items : List Item} {enabled : FeatureSet}
    {o₁ o₂ : CompileOptions} {item : Item} (hitem : item ∈ items)
    (h : (build items enabled).AgreeAt item.node o₁ o₂) :
    Decision.make o₁ item = Decision.make o₂ item := by
  apply Item.make_congr
  constructor
  · intro name hname
    exact h.1 name
      (List.mem_flatMap.mpr ⟨item, hitem, Item.feature_mem_edges hname⟩)
  · intro htest
    exact h.2 (List.mem_flatMap.mpr ⟨item, hitem, Item.test_mem_edges htest⟩)

theorem mem_features_of_mem {items : List Item} (enabled : FeatureSet)
    {item : Item} (hitem : item ∈ items) {name : Bytes}
    (hname : name ∈ item.features.names) :
    name ∈ (build items enabled).features :=
  FeatureSet.mem_ofList.mpr (List.mem_flatMap.mpr ⟨item, hitem, hname⟩)

/-- Options that agree in their test mode and on all features of the graph make
the same plan. -/
theorem plan_eq_of_agreeOn {items : List Item} (enabled : FeatureSet)
    {o₁ o₂ : CompileOptions}
    (h : AgreeOn (build items enabled).features true o₁ o₂) :
    Plan.make items o₁ = Plan.make items o₂ := by
  have hdecisions :
      items.map (Decision.make o₁) = items.map (Decision.make o₂) := by
    apply List.map_congr_left
    intro item hitem
    apply Item.make_congr
    refine ⟨fun name hname =>
      h.1 name (mem_features_of_mem enabled hitem hname), ?_⟩
    exact fun _ => h.2 rfl
  rw [Plan.make, Plan.make, hdecisions]

theorem not_mem_features_of_mem_unreferenced {items : List Item}
    {enabled : FeatureSet} {name : Bytes}
    (h : name ∈ (build items enabled).coverage.unreferenced) :
    name ∉ (build items enabled).features :=
  of_decide_eq_true (List.mem_filter.mp h).2

end FeatureGraph

open FeatureGraph

/-- The graph is a sound dependency analysis: two options that agree on the
edges from an item decide the same about it. So features outside the graph play
no part in a plan, and neither does disabling any of the names reported as
unreferenced. -/
theorem plan_depends_on_graph (items : List Item) (enabled : FeatureSet) :
    (∀ (i : Nat) (item : Item) (o₁ o₂ : CompileOptions), items[i]? = some item →
      (build items enabled).AgreeAt item.node o₁ o₂ →
        ∃ decision : Decision, decision.item = item
          ∧ (Plan.make items o₁).decisions[i]? = some decision
          ∧ (Plan.make items o₂).decisions[i]? = some decision) ∧
    (∀ o : CompileOptions,
      Plan.make items (o.restrict (build items enabled).features) =
        Plan.make items o) ∧
    ∀ (o : CompileOptions) (names : List Bytes),
      names ⊆ (build items enabled).coverage.unreferenced →
        Plan.make items (names.foldl disable o) = Plan.make items o := by
  refine ⟨?_, ?_, ?_⟩
  · intro i item o₁ o₂ hitem hagree
    have hsame := make_eq_of_agreeAt (List.mem_of_getElem? hitem) hagree
    refine ⟨Decision.make o₁ item, rfl, ?_, ?_⟩
    · simp [Plan.make, hitem]
    · simp [Plan.make, hitem, hsame]
  · intro o
    apply plan_eq_of_agreeOn enabled
    refine ⟨fun name hname => ?_, fun _ => rfl⟩
    simp [hname]
  · intro o names hnames
    apply plan_eq_of_agreeOn enabled
    refine ⟨fun name hname => ?_, fun _ => test_foldl_disable o names⟩
    apply hasFeature_foldl_disable
    intro hmem
    exact not_mem_features_of_mem_unreferenced (hnames hmem) hname

/-- An item under `any(not(feature = "x"), near(test, ))`, where `near` is no
known function and its second condition is missing. -/
def nearTestItem : Item where
  kind := utf8 "fn"
  name := utf8 "a"
  attrs := [⟨utf8 "cfg", .paren [.call (utf8 "any") [
    .call (utf8 "not") [.keyValue (utf8 "feature") (utf8 "x")],
    .call (utf8 "near") [.ident (utf8 "test"), .hole]]], {}⟩]

/-- The feature `y` is not mentioned, so it makes no difference. -/
theorem plan_depends_on_graph_unknown_function :
    (build [nearTestItem] (.ofList [utf8 "y", utf8 "x"])).AgreeAt
      nearTestItem.node
        (.withFeatures [utf8 "x", utf8 "y"]) (.withFeatures [utf8 "x"])
      ∧ (∃ decision : Decision, decision.item = nearTestItem
        ∧ (Plan.make [nearTestItem]
          (.withFeatures [utf8 "x", utf8 "y"])).decisions[0]?
          = some decision
        ∧ (Plan.make [nearTestItem] (.withFeatures [utf8 "x"])).decisions[0]? =
          some decision)
      ∧ [utf8 "y"] ⊆
        (build [nearTestItem]
          (.ofList [utf8 "y", utf8 "x"])).coverage.unreferenced
      ∧ Plan.make [nearTestItem]
        ([utf8 "y"].foldl disable (.withFeatures [utf8 "x", utf8 "y"]))
        = Plan.make [nearTestItem] (.withFeatures [utf8 "x", utf8 "y"]) := by
  have hedges : (build [nearTestItem] (.ofList [utf8 "y", utf8 "x"])).edges
      = [⟨nearTestItem.node, .feature (utf8 "x")⟩,
        ⟨nearTestItem.node, .test⟩] := by
    decide +kernel
  have hagree : (build [nearTestItem] (.ofList [utf8 "y", utf8 "x"])).AgreeAt
      nearTestItem.node
      (.withFeatures [utf8 "x", utf8 "y"]) (.withFeatures [utf8 "x"]) := by
    refine ⟨fun name hname => ?_, fun _ => rfl⟩
    simp only [hedges, List.mem_cons, Edge.mk.injEq, EdgeTarget.feature.injEq,
      true_and, List.not_mem_nil, or_false, reduceCtorEq, and_false] at hname
    rw [hname]
    decide +kernel
  have hnames : [utf8 "y"] ⊆
      (build [nearTestItem]
        (.ofList [utf8 "y", utf8 "x"])).coverage.unreferenced := by
    decide +kernel
  exact ⟨hagree, (plan_depends_on_graph _ _).1 0 _ _ _ rfl hagree, hnames,
    (plan_depends_on_graph _ _).2.2 _ _ hnames⟩

end FeatureGate
