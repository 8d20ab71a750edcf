import Mathlib
import FeatureGate.Proofs.Dependence
import FeatureGate.Proofs.LintGate

/-!
What the graph says, and that nothing in it depends on the order in which loops
go through sets. The loops are written down as relations in which each loop over
a set may choose an order of its own; what comes out is one graph, and it lists
exactly what the items mention.
-/

namespace FeatureGate

namespace FeatureSet

/-- A loop over a set goes through each name once, in any order. -/
def Ranges (set : FeatureSet) (keys : List Bytes) : Prop := keys.Perm set.names

def sortNames (names : List Bytes) : List Bytes :=
  names.mergeSort fun a b => !decide (b < a)

theorem pairwise_sortNames (names : List Bytes) :
    (sortNames names).Pairwise fun a b => ¬ b < a := by
  have htrans : ∀ a b c : Bytes, (!decide (b < a)) = true →
      (!decide (c < b)) = true →
      (!decide (c < a)) = true := by
    intro a b c hab hbc
    simp only [Bool.not_eq_true', decide_eq_false_iff_not,
      List.not_lt] at hab hbc ⊢
    exact List.le_trans hab hbc
  have htotal : ∀ a b : Bytes, (!decide (b < a) || !decide (a < b)) = true := by
    intro a b
    simp only [Bool.or_eq_true, Bool.not_eq_true', decide_eq_false_iff_not,
      List.not_lt]
    exact List.le_total a b
  refine (List.pairwise_mergeSort htrans htotal names).imp ?_
  intro a b h
  simpa using h

/-- Sorting undoes any order that a loop has chosen. -/
theorem sortNames_eq {keys names : List Bytes} (hperm : keys.Perm names)
    (hascending : names.Pairwise (· < ·)) : sortNames keys = names := by
  have hsorted : names.Pairwise fun a b => ¬ b < a :=
    hascending.imp fun h => List.lt_asymm h
  refine List.Perm.eq_of_pairwise ?_ (pairwise_sortNames keys) hsorted
    ((List.mergeSort_perm keys _).trans hperm)
  intro a b _ _ hab hba
  by_contra hne
  exact hab (lt_of_not_lt hba hne)

/-- Sorting undoes the order in which a set was gone through. -/
theorem Ranges.sortNames_eq {set : FeatureSet} {keys : List Bytes}
    (h : set.Ranges keys) :
    sortNames keys = set.names :=
  FeatureSet.sortNames_eq h set.ascending

theorem Ranges.sortNames_filter_eq {set : FeatureSet} {keys : List Bytes}
    (h : set.Ranges keys) (keep : Bytes → Bool) :
    sortNames (keys.filter keep) = set.names.filter keep :=
  FeatureSet.sortNames_eq (h.filter keep) (set.ascending.filter keep)

theorem ranges_names (set : FeatureSet) : set.Ranges set.names :=
  List.Perm.refl _

end FeatureSet

namespace FeatureGraph

open FeatureSet

/-- The loop over the items: the edges it makes, and the features seen before it
and after it. -/
inductive Collected : List Item → FeatureSet → List Edge → FeatureSet → Prop
  | nil (seen : FeatureSet) : Collected [] seen [] seen
  | cons {item : Item} {items : List Item} {seen seen' : FeatureSet}
      {keys : List Bytes}
      {edges : List Edge} (hkeys : item.features.Ranges keys)
      (h : Collected items ((sortNames keys).foldl FeatureSet.insert seen)
        edges seen') :
      Collected (item :: items) seen
        (((sortNames keys).map fun name => ⟨item.node, .feature name⟩)
          ++ (if item.mentionsTest then [⟨item.node, .test⟩] else []) ++
            edges) seen'

/-- The report on the features that are used and those that are switched on. One
loop over the used ones fills two of its lists. -/
inductive Reported (used on : FeatureSet) : Coverage → Prop
  | intro {keys onKeys : List Bytes} (hkeys : used.Ranges keys)
      (honKeys : on.Ranges onKeys) :
      Reported used on
        { used := sortNames keys
          disabled := sortNames (keys.filter fun name => decide (name ∉ on))
          unreferenced :=
            sortNames (onKeys.filter fun name => decide (name ∉ used)) }

/-- The graphs that the loops may give. -/
inductive Built (items : List Item) (enabled : List Bytes) : FeatureGraph → Prop
  | intro {edges : List Edge} {used : FeatureSet} {keys : List Bytes}
      {coverage : Coverage}
      (hitems : Collected items .empty edges used) (hkeys : used.Ranges keys)
      (hcoverage : Reported used (.ofList enabled) coverage) :
      Built items enabled
        { items := items.map Item.node, features := sortNames keys,
          edges := edges
          coverage := coverage }

/-- Going through the items leaves one result, in whichever order each set is
gone through. -/
theorem collected_iff {items : List Item} {seen seen' : FeatureSet}
    {edges : List Edge} :
    Collected items seen edges seen' ↔ edges = items.flatMap Item.edges
      ∧ seen' = (items.flatMap fun item => item.features.names).foldl
        FeatureSet.insert seen := by
  constructor
  · intro h
    induction h with
    | nil seen => exact ⟨rfl, rfl⟩
    | cons hkeys h ih =>
        obtain ⟨rfl, rfl⟩ := ih
        rw [hkeys.sortNames_eq]
        exact ⟨rfl, by rw [List.flatMap_cons, List.foldl_append]⟩
  · rintro ⟨rfl, rfl⟩
    induction items generalizing seen with
    | nil => exact .nil seen
    | cons item items ih =>
        have h : Collected (item :: items) seen _ _ :=
          .cons (ranges_names item.features) ih
        rw [(ranges_names item.features).sortNames_eq, ← List.foldl_append] at h
        exact h

theorem reported_iff {used on : FeatureSet} {coverage : Coverage} :
    Reported used on coverage ↔ coverage =
      { used := used.names
        disabled := used.names.filter fun name => decide (name ∉ on)
        unreferenced := on.names.filter fun name => decide (name ∉ used) } := by
  constructor
  · rintro ⟨hkeys, honKeys⟩
    rw [hkeys.sortNames_eq, hkeys.sortNames_filter_eq,
      honKeys.sortNames_filter_eq]
  · rintro rfl
    have h := Reported.intro (ranges_names used) (ranges_names on)
    rwa [(ranges_names used).sortNames_eq,
      (ranges_names used).sortNames_filter_eq,
      (ranges_names on).sortNames_filter_eq] at h

/-- Whatever orders the loops choose, the graph is the same. -/
theorem built_iff {items : List Item} {enabled : List Bytes}
    {graph : FeatureGraph} :
    Built items enabled graph ↔ graph = build items (.ofList enabled) := by
  constructor
  · rintro ⟨hitems, hkeys, hcoverage⟩
    obtain ⟨rfl, rfl⟩ := collected_iff.mp hitems
    rw [hkeys.sortNames_eq, reported_iff.mp hcoverage]
    rfl
  · rintro rfl
    have h : Built items enabled _ := .intro (collected_iff.mpr ⟨rfl, rfl⟩)
      (ranges_names (usedFeatures items)) (reported_iff.mpr rfl)
    rwa [(ranges_names (usedFeatures items)).sortNames_eq] at h

end FeatureGraph

/-- Ascending without repetition, the list holds exactly the names with a
property. -/
structure ListsExactly (names : List Bytes)
    (property : Bytes → Prop) : Prop where
  ascending : names.Pairwise (· < ·)
  mem_iff : ∀ name, name ∈ names ↔ property name

theorem FeatureSet.listsExactly {set : FeatureSet} {property : Bytes → Prop}
    (h : ∀ name, name ∈ set ↔ property name) :
    ListsExactly set.names property :=
  ⟨set.ascending, h⟩

theorem FeatureSet.listsExactly_filter {set : FeatureSet} {keep : Bytes → Bool}
    {property : Bytes → Prop}
    (h : ∀ name, name ∈ set ∧ keep name = true ↔ property name) :
    ListsExactly (set.names.filter keep) property :=
  ⟨set.ascending.filter keep, fun name => List.mem_filter.trans (h name)⟩

namespace Term

theorem mem_features {t : Term} {name : Bytes} :
    name ∈ t.features ↔ .keyValue Vocabulary.feature name ∈ t.subterms := by
  induction t with
  | ident other => simp [features, subterms]
  | keyValue key value =>
      by_cases hkey : key = Vocabulary.feature
      · simp [features, subterms, hkey]
      · simp [features, subterms, hkey, Ne.symm hkey]
  | call _ args ih =>
      rw [features, mem_featuresOfList, mem_subterms]
      simp only [reduceCtorEq, false_or, parts]
      exact exists_congr fun t => and_congr_right fun ht => ih t ht
  | hole => simp [features, subterms]

theorem mentionsTest_iff {t : Term} :
    t.mentionsTest = true ↔ .ident Vocabulary.test ∈ t.subterms := by
  induction t with
  | ident name => simp [mentionsTest, subterms, eq_comm]
  | keyValue key value => simp [mentionsTest, subterms]
  | call _ args ih =>
      rw [mentionsTest, anyMentionsTest_iff, mem_subterms]
      simp only [reduceCtorEq, false_or, parts]
      exact exists_congr fun t => and_congr_right fun ht => ih t ht
  | hole => simp [mentionsTest, subterms]

end Term

namespace Item

/-- A term occurs in a parenthesised `cfg` attribute of the item, at any
depth. -/
def Mentions (item : Item) (t : Term) : Prop :=
  ∃ attr ∈ item.attrs, attr.name = Vocabulary.cfg
    ∧ ∃ terms, attr.args = .paren terms ∧ t ∈ Term.subtermsOfList terms

/-- What an item mentions is what its conditions mention. -/
theorem mentions_iff {item : Item} {t : Term} :
    item.Mentions t ↔ ∃ u ∈ item.conditions, t ∈ u.subterms := by
  simp only [Mentions, conditions, List.mem_flatMap, Term.mem_subtermsOfList]
  constructor
  · rintro ⟨attr, hattr, hcfg, terms, hargs, u, hu, ht⟩
    exact ⟨u, ⟨attr, hattr, by simpa [Attribute.conditions, Attribute.isCfg,
      hcfg, hargs] using hu⟩, ht⟩
  · rintro ⟨u, ⟨attr, hattr, hu⟩, ht⟩
    by_cases hcfg : attr.name = Vocabulary.cfg
    · cases hargs : attr.args with
      | none => simp [Attribute.conditions, hargs] at hu
      | eq value => simp [Attribute.conditions, hargs] at hu
      | paren terms =>
          refine ⟨attr, hattr, hcfg, terms, hargs, u, ?_, ht⟩
          simpa [Attribute.conditions, Attribute.isCfg, hcfg, hargs] using hu
    · simp [Attribute.conditions, Attribute.isCfg, hcfg] at hu

theorem mem_features {item : Item} {name : Bytes} :
    name ∈ item.features ↔
      item.Mentions (.keyValue Vocabulary.feature name) := by
  rw [features, FeatureSet.mem_ofList, Term.mem_featuresOfList, mentions_iff]
  exact exists_congr fun t => and_congr_right fun _ => Term.mem_features

theorem mentionsTest_iff {item : Item} :
    item.mentionsTest = true ↔ item.Mentions (.ident Vocabulary.test) := by
  rw [mentionsTest, Term.anyMentionsTest_iff, mentions_iff]
  exact exists_congr fun t => and_congr_right fun _ => Term.mentionsTest_iff

/-- One edge to each feature that the item mentions, in ascending order, and
then one to the test predicate if the item mentions it. -/
inductive Links (item : Item) : List Edge → Prop
  | plain {names : List Bytes}
      (hnames : ListsExactly names fun name =>
        item.Mentions (.keyValue Vocabulary.feature name))
      (htest : ¬ item.Mentions (.ident Vocabulary.test)) :
      Links item (names.map fun name =>
        ⟨item.kind ++ utf8 ":" ++ item.name, .feature name⟩)
  | gated {names : List Bytes}
      (hnames : ListsExactly names fun name =>
        item.Mentions (.keyValue Vocabulary.feature name))
      (htest : item.Mentions (.ident Vocabulary.test)) :
      Links item ((names.map fun name => ⟨item.kind ++ utf8 ":" ++ item.name,
        .feature name⟩)
        ++ [⟨item.kind ++ utf8 ":" ++ item.name, .test⟩])

theorem links_edges (item : Item) : item.Links item.edges := by
  have hnames : ListsExactly item.features.names fun name =>
      item.Mentions (.keyValue Vocabulary.feature name) :=
    FeatureSet.listsExactly fun _ => mem_features
  by_cases htest : item.mentionsTest = true
  · rw [edges, if_pos htest]
    exact .gated hnames (mentionsTest_iff.mp htest)
  · rw [edges, if_neg htest, List.append_nil]
    exact .plain hnames (mentionsTest_iff.not.mp htest)

theorem feature_mem_edges_iff {item : Item} {name : Bytes} :
    (∃ edge ∈ item.edges, edge.target = .feature name) ↔
      name ∈ item.features := by
  constructor
  · rintro ⟨edge, hedge, htarget⟩
    rcases List.mem_append.mp hedge with hedge | hedge
    · obtain ⟨other, hother, rfl⟩ := List.mem_map.mp hedge
      cases htarget
      exact hother
    · split at hedge
      · obtain rfl := List.mem_singleton.mp hedge
        cases htarget
      · simp at hedge
  · intro h
    exact ⟨_, feature_mem_edges h, rfl⟩

end Item

namespace FeatureGraph

/-- The graph and its report say exactly what the items mention and how that
compares with the enabled names. -/
structure Exact (items : List Item) (enabled : List Bytes)
    (graph : FeatureGraph) : Prop where
  items_eq : graph.items = items.map fun item =>
    item.kind ++ utf8 ":" ++ item.name
  features : ListsExactly graph.features fun name =>
    ∃ item ∈ items, item.Mentions (.keyValue Vocabulary.feature name)
  used : graph.coverage.used = graph.features
  disabled : ListsExactly graph.coverage.disabled fun name =>
    name ∈ graph.features ∧ name ∉ enabled
  unreferenced : ListsExactly graph.coverage.unreferenced fun name =>
    name ∈ enabled ∧ name ∉ graph.features
  enabled_iff : ∀ name, name ∈ enabled ↔
    (name ∈ graph.coverage.used ∧ name ∉ graph.coverage.disabled)
      ∨ name ∈ graph.coverage.unreferenced
  edges : ∃ parts, List.Forall₂ Item.Links items parts ∧
    graph.edges = parts.flatten
  targets : ∀ name, (∃ edge ∈ graph.edges, edge.target = .feature name) ↔
    name ∈ graph.features

theorem mem_usedFeatures {items : List Item} {name : Bytes} :
    name ∈ usedFeatures items ↔ ∃ item ∈ items, name ∈ item.features := by
  rw [usedFeatures, FeatureSet.mem_ofList, List.mem_flatMap]
  rfl

theorem feature_mem_edges_iff {items : List Item} {name : Bytes} :
    (∃ edge ∈ items.flatMap Item.edges, edge.target = .feature name)
      ↔ name ∈ usedFeatures items := by
  rw [mem_usedFeatures]
  constructor
  · rintro ⟨edge, hedge, htarget⟩
    obtain ⟨item, hitem, hedge⟩ := List.mem_flatMap.mp hedge
    exact ⟨item, hitem, Item.feature_mem_edges_iff.mp ⟨edge, hedge, htarget⟩⟩
  · rintro ⟨item, hitem, hname⟩
    obtain ⟨edge, hedge, htarget⟩ := Item.feature_mem_edges_iff.mpr hname
    exact ⟨edge, List.mem_flatMap.mpr ⟨item, hitem, hedge⟩, htarget⟩

/-- The graph lists what the items mention, and nothing else. -/
theorem exact_build (items : List Item) (enabled : List Bytes) :
    Exact items enabled (build items (.ofList enabled)) := by
  have hfeatures :
      ListsExactly (build items (.ofList enabled)).features fun name =>
      ∃ item ∈ items, item.Mentions (.keyValue Vocabulary.feature name) := by
    apply FeatureSet.listsExactly
    intro name
    rw [mem_usedFeatures]
    exact exists_congr fun item => and_congr_right fun _ => Item.mem_features
  have hdisabled :
      ListsExactly (build items (.ofList enabled)).coverage.disabled fun name =>
      name ∈ (build items (.ofList enabled)).features ∧ name ∉ enabled := by
    apply FeatureSet.listsExactly_filter
    intro name
    rw [decide_eq_true_eq, FeatureSet.mem_ofList]
    rfl
  have hunreferenced :
      ListsExactly (build items (.ofList enabled)).coverage.unreferenced
      fun name => name ∈ enabled ∧
        name ∉ (build items (.ofList enabled)).features := by
    apply FeatureSet.listsExactly_filter
    intro name
    rw [decide_eq_true_eq, FeatureSet.mem_ofList]
    rfl
  refine ⟨rfl, hfeatures, rfl, hdisabled, hunreferenced, ?_, ?_,
    fun _ => feature_mem_edges_iff⟩
  · intro name
    rw [hdisabled.mem_iff, hunreferenced.mem_iff]
    change name ∈ enabled ↔
      (name ∈ (build items (.ofList enabled)).features ∧ _) ∨ _
    tauto
  · refine ⟨items.map Item.edges, ?_, List.flatMap_def⟩
    rw [List.forall₂_map_right_iff, List.forall₂_same]
    exact fun item _ => item.links_edges

end FeatureGraph

open FeatureGraph

/-- In whatever orders the loops go through the sets, there is one graph that
they build, and it is exact. -/
theorem graph_exact_in_any_order (items : List Item) (enabled : List Bytes) :
    (∀ graph, Built items enabled graph ↔ graph = build items (.ofList enabled))
      ∧ Exact items enabled (build items (.ofList enabled)) :=
  ⟨fun _ => built_iff, exact_build items enabled⟩

end FeatureGate
