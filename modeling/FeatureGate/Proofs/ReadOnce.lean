import Mathlib
import FeatureGate.Proofs.Dependence
import FeatureGate.Proofs.LintGate

/-!
Conditions that name no atom twice. An atom is what an edge of the graph leads
to: a feature, or the test predicate. Where nothing is found by linting and
nothing stands in an empty conjunction, every atom of such conditions can decide
about the item.
-/

namespace FeatureGate

namespace CompileOptions

def holds (o : CompileOptions) : EdgeTarget → Bool
  | .feature name => o.hasFeature name
  | .test => o.test

/-- The options are the same but for one atom. -/
def DifferAt (atom : EdgeTarget) (o₁ o₂ : CompileOptions) : Prop :=
  ∀ other, other ≠ atom → o₁.holds other = o₂.holds other

/-- The first options on the listed atoms, and the second on all others. -/
def splice (atoms : List EdgeTarget) (o₁ o₂ : CompileOptions) :
    CompileOptions where
  test := if atoms.contains .test then o₁.test else o₂.test
  features := .ofList
    ((o₁.features.names.filter fun name => atoms.contains (.feature name))
      ++ o₂.features.names.filter fun name => !atoms.contains (.feature name))

/-- Spliced options follow the first on the given atoms, and elsewhere the
second. -/
theorem holds_splice (atoms : List EdgeTarget) (o₁ o₂ : CompileOptions)
    (atom : EdgeTarget) :
    (splice atoms o₁ o₂).holds atom = if atom ∈ atoms then o₁.holds atom
      else o₂.holds atom := by
  cases atom with
  | test => by_cases hmem : .test ∈ atoms <;> simp [splice, holds, hmem]
  | feature name =>
      have hnames : ∀ o : CompileOptions,
          o.hasFeature name = decide (name ∈ o.features.names) :=
        fun _ => rfl
      have hmemList : name ∈ (splice atoms o₁ o₂).features.names ↔ _ :=
        FeatureSet.mem_ofList
      by_cases hmem : .feature name ∈ atoms <;>
        simp [holds, hnames, hmemList, hmem]

/-- The atom has a say in an answer: changing it alone can change the answer. -/
def Sways (answer : CompileOptions → Bool) (atom : EdgeTarget) : Prop :=
  ∃ o₁ o₂, DifferAt atom o₁ o₂ ∧ answer o₁ ≠ answer o₂

theorem Sways.attains {answer : CompileOptions → Bool} {atom : EdgeTarget}
    (h : Sways answer atom) (value : Bool) : ∃ o, answer o = value := by
  obtain ⟨o₁, o₂, -, hne⟩ := h
  have htwo : ∀ a b : Bool, a ≠ b → a = value ∨ b = value := by decide +revert
  rcases htwo _ _ hne with h | h
  · exact ⟨o₁, h⟩
  · exact ⟨o₂, h⟩

end CompileOptions

open CompileOptions

namespace Term

mutual

/-- The atoms of a condition, as often as they occur. -/
def atoms : Term → List EdgeTarget
  | .ident name => if name = Vocabulary.test then [.test] else []
  | .keyValue key value =>
      if key = Vocabulary.feature then [.feature value] else []
  | .call _ args => atomsOfList args
  | .hole => []

def atomsOfList : List Term → List EdgeTarget
  | [] => []
  | t :: ts => atoms t ++ atomsOfList ts

end

theorem atomsOfList_eq_flatMap (ts : List Term) :
    atomsOfList ts = ts.flatMap atoms := by
  induction ts with
  | nil => rfl
  | cons t ts ih => rw [atomsOfList, ih, List.flatMap_cons]

theorem atoms_call (name : Bytes) (args : List Term) :
    atoms (.call name args) = args.flatMap atoms :=
  atomsOfList_eq_flatMap args

theorem mem_atomsOfList {ts : List Term} {atom : EdgeTarget} :
    atom ∈ atomsOfList ts ↔ ∃ t ∈ ts, atom ∈ t.atoms := by
  rw [atomsOfList_eq_flatMap, List.mem_flatMap]

theorem feature_mem_atoms {t : Term} {name : Bytes} :
    .feature name ∈ t.atoms ↔ name ∈ t.features := by
  induction t with
  | ident other =>
      by_cases h : other = Vocabulary.test <;> simp [atoms, features, h]
  | keyValue key value =>
      by_cases h : key = Vocabulary.feature <;> simp [atoms, features, h]
  | call _ args ih =>
      rw [atoms, features, mem_atomsOfList, mem_featuresOfList]
      exact exists_congr fun t => and_congr_right fun ht => ih t ht
  | hole => simp [atoms, features]

theorem test_mem_atoms {t : Term} :
    .test ∈ t.atoms ↔ t.mentionsTest = true := by
  induction t with
  | ident name =>
      by_cases h : name = Vocabulary.test <;> simp [atoms, mentionsTest, h]
  | keyValue key value =>
      by_cases h : key = Vocabulary.feature <;> simp [atoms, mentionsTest, h]
  | call _ args ih =>
      rw [atoms, mentionsTest, mem_atomsOfList, anyMentionsTest_iff]
      exact exists_congr fun t => and_congr_right fun ht => ih t ht
  | hole => simp [atoms, mentionsTest]

theorem eval_congr_atoms {o₁ o₂ : CompileOptions} {t : Term}
    (h : ∀ atom ∈ t.atoms, o₁.holds atom = o₂.holds atom) :
    t.eval o₁ = t.eval o₂ := by
  apply eval_congr
  constructor
  · intro name hname
    exact h (.feature name) (feature_mem_atoms.mpr hname)
  · intro htest
    exact h .test (test_mem_atoms.mpr htest)

theorem eval_splice_of_subset {o₁ o₂ : CompileOptions} {ts : List EdgeTarget}
    {t : Term} (h : t.atoms ⊆ ts) : t.eval (splice ts o₁ o₂) = t.eval o₁ := by
  apply eval_congr_atoms
  intro atom hatom
  rw [holds_splice, if_pos (h hatom)]

/-- Atoms that a condition does not mention can be changed freely. -/
theorem eval_splice_of_disjoint {o₁ o₂ : CompileOptions} {ts : List EdgeTarget}
    {t : Term} (h : ts.Disjoint t.atoms) :
    t.eval (splice ts o₁ o₂) = t.eval o₂ := by
  apply eval_congr_atoms
  intro atom hatom
  rw [holds_splice, if_neg fun hmem => h hmem hatom]

theorem evalAll_of_others_true {o : CompileOptions} {before after : List Term}
    {t : Term} (h : ∀ u ∈ before ++ after, u.eval o = true) :
    evalAll o (before ++ t :: after) = t.eval o := by
  rw [← List.all_eq_true, List.all_append, Bool.and_eq_true] at h
  rw [evalAll_eq_all, List.all_append, List.all_cons, h.1, h.2, Bool.true_and,
    Bool.and_true]

theorem evalAny_of_others_false {o : CompileOptions} {before after : List Term}
    {t : Term} (h : ∀ u ∈ before ++ after, u.eval o = false) :
    evalAny o (before ++ t :: after) = t.eval o := by
  have hnone : ((before ++ after).any fun u => u.eval o) = false := by
    rw [List.any_eq_false]
    exact fun u hu => by rw [h u hu]; exact Bool.false_ne_true
  rw [List.any_append, Bool.or_eq_false_iff] at hnone
  rw [evalAny_eq_any, List.any_append, List.any_cons, hnone.1, hnone.2,
    Bool.false_or, Bool.or_false]

/-- The condition has atoms, and each of them can decide about it. -/
def Responsive (t : Term) : Prop :=
  t.atoms ≠ [] ∧ ∀ atom ∈ t.atoms, Sways (fun o => t.eval o) atom

theorem Responsive.attains {t : Term} (h : t.Responsive) (value : Bool) :
    ∃ o, t.eval o = value := by
  obtain ⟨atom, hatom⟩ := List.exists_mem_of_ne_nil _ h.1
  exact (h.2 atom hatom).attains value

/-- Conditions that share no atom can all be given the same value. -/
theorem exists_forall_eval_eq {ts : List Term}
    (hnodup : (ts.flatMap atoms).Nodup) (h : ∀ t ∈ ts, t.Responsive)
    (value : Bool) : ∃ o, ∀ t ∈ ts, t.eval o = value := by
  induction ts with
  | nil => exact ⟨{}, by simp⟩
  | cons t ts ih =>
      rw [List.flatMap_cons, List.nodup_append'] at hnodup
      obtain ⟨-, hrest, hdisjoint⟩ := hnodup
      rw [List.forall_mem_cons] at h
      obtain ⟨o₁, h₁⟩ := h.1.attains value
      obtain ⟨o₂, h₂⟩ := ih hrest h.2
      refine ⟨splice t.atoms o₁ o₂, ?_⟩
      rw [List.forall_mem_cons]
      constructor
      · rw [eval_splice_of_subset (List.Subset.refl _), h₁]
      · intro u hu
        rw [eval_splice_of_disjoint, h₂ u hu]
        exact fun atom hatom hmem =>
          hdisjoint hatom (List.mem_flatMap.mpr ⟨u, hu, hmem⟩)

/-- An atom of one of the conditions can decide about it while the others keep a
given value. -/
theorem exists_sway_among {before after : List Term} {t : Term}
    (hnodup : ((before ++ t :: after).flatMap atoms).Nodup)
    (h : ∀ u ∈ before ++ t :: after, u.Responsive) {atom : EdgeTarget}
    (hatom : atom ∈ t.atoms) (value : Bool) :
    ∃ o₁ o₂, DifferAt atom o₁ o₂ ∧ t.eval o₁ ≠ t.eval o₂
      ∧ ∀ u ∈ before ++ after, u.eval o₁ = value ∧ u.eval o₂ = value := by
  -- The atoms of `t` are taken from options that differ at `atom`, and all
  -- others from options under which the other conditions have the value.
  have hperm : (before ++ t :: after).Perm (t :: (before ++ after)) :=
    List.perm_middle
  rw [(hperm.flatMap_right atoms).nodup_iff, List.flatMap_cons,
    List.nodup_append'] at hnodup
  obtain ⟨-, hrest, hdisjoint⟩ := hnodup
  have hothers : ∀ u ∈ before ++ after, u.Responsive := fun u hu =>
    h u (hperm.mem_iff.mpr (List.mem_cons_of_mem t hu))
  obtain ⟨o, ho⟩ := exists_forall_eval_eq hrest hothers value
  obtain ⟨o₁, o₂, hdiffer, hne⟩ :=
    (h t (hperm.mem_iff.mpr List.mem_cons_self)).2 atom hatom
  refine ⟨splice t.atoms o₁ o, splice t.atoms o₂ o, ?_, ?_, ?_⟩
  · intro other hother
    rw [holds_splice, holds_splice, hdiffer other hother]
  · rw [eval_splice_of_subset (List.Subset.refl _),
      eval_splice_of_subset (List.Subset.refl _)]
    exact hne
  · intro u hu
    have hapart : t.atoms.Disjoint u.atoms := fun atom hatom hmem =>
      hdisjoint hatom (List.mem_flatMap.mpr ⟨u, hu, hmem⟩)
    rw [eval_splice_of_disjoint hapart, eval_splice_of_disjoint hapart]
    exact ⟨ho u hu, ho u hu⟩

/-- An atom that decides about a part decides about the conjunction when all the
other parts are true. -/
theorem sways_evalAll {ts : List Term} (hnodup : (ts.flatMap atoms).Nodup)
    (h : ∀ t ∈ ts, t.Responsive) {atom : EdgeTarget}
    (hatom : atom ∈ ts.flatMap atoms) :
    Sways (fun o => evalAll o ts) atom := by
  obtain ⟨t, ht, hmem⟩ := List.mem_flatMap.mp hatom
  obtain ⟨before, after, rfl⟩ := List.append_of_mem ht
  obtain ⟨o₁, o₂, hdiffer, hne, hothers⟩ := exists_sway_among hnodup h hmem true
  refine ⟨o₁, o₂, hdiffer, ?_⟩
  change evalAll o₁ _ ≠ evalAll o₂ _
  rw [evalAll_of_others_true fun u hu => (hothers u hu).1,
    evalAll_of_others_true fun u hu => (hothers u hu).2]
  exact hne

/-- An atom that decides about a part decides about the disjunction when all the
other parts are false. -/
theorem sways_evalAny {ts : List Term} (hnodup : (ts.flatMap atoms).Nodup)
    (h : ∀ t ∈ ts, t.Responsive) {atom : EdgeTarget}
    (hatom : atom ∈ ts.flatMap atoms) :
    Sways (fun o => evalAny o ts) atom := by
  obtain ⟨t, ht, hmem⟩ := List.mem_flatMap.mp hatom
  obtain ⟨before, after, rfl⟩ := List.append_of_mem ht
  obtain ⟨o₁, o₂, hdiffer, hne, hothers⟩ :=
    exists_sway_among hnodup h hmem false
  refine ⟨o₁, o₂, hdiffer, ?_⟩
  change evalAny o₁ _ ≠ evalAny o₂ _
  rw [evalAny_of_others_false fun u hu => (hothers u hu).1,
    evalAny_of_others_false fun u hu => (hothers u hu).2]
  exact hne

theorem flatMap_atoms_ne_nil {ts : List Term} (hne : ts ≠ [])
    (h : ∀ t ∈ ts, t.Responsive) :
    ts.flatMap atoms ≠ [] := by
  obtain ⟨t, ht⟩ := List.exists_mem_of_ne_nil ts hne
  intro hnil
  exact (h t ht).1 (List.flatMap_eq_nil_iff.mp hnil t ht)

theorem responsive_test : Responsive (.ident Vocabulary.test) := by
  refine ⟨by simp [atoms], fun atom hatom => ?_⟩
  obtain rfl : atom = .test := by simpa [atoms] using hatom
  refine ⟨{ test := true }, {}, fun other hother => ?_, by simp [eval]⟩
  cases other with
  | feature name => rfl
  | test => exact absurd rfl hother

theorem responsive_feature (value : Bytes) :
    Responsive (.keyValue Vocabulary.feature value) := by
  refine ⟨by simp [atoms], fun atom hatom => ?_⟩
  obtain rfl : atom = .feature value := by simpa [atoms] using hatom
  refine ⟨enable {} value, {}, fun other hother => ?_, ?_⟩
  · cases other with
    | feature name =>
        have hname : name ≠ value := fun heq => hother (by rw [heq])
        simp [holds, hname]
    | test => rfl
  · have hnone : hasFeature {} value = false := by simp [hasFeature]
    simp [eval, hnone]

theorem Responsive.not {t : Term} (h : t.Responsive) :
    Responsive (.call Vocabulary.not [t]) := by
  rw [Responsive, atoms_call, List.flatMap_singleton]
  refine ⟨h.1, fun atom hatom => ?_⟩
  obtain ⟨o₁, o₂, hdiffer, hne⟩ := h.2 atom hatom
  refine ⟨o₁, o₂, hdiffer, ?_⟩
  simpa [eval_call, evalNot] using hne

/-- A conjunction whose parts share no atom is as responsive as they are. -/
theorem Responsive.all {ts : List Term} (hne : ts ≠ [])
    (hnodup : (ts.flatMap atoms).Nodup) (h : ∀ t ∈ ts, t.Responsive) :
    Responsive (.call Vocabulary.all ts) := by
  rw [Responsive, atoms_call]
  refine ⟨flatMap_atoms_ne_nil hne h, fun atom hatom => ?_⟩
  simpa [eval_call] using sways_evalAll hnodup h hatom

theorem Responsive.any {ts : List Term} (hne : ts ≠ [])
    (hnodup : (ts.flatMap atoms).Nodup) (h : ∀ t ∈ ts, t.Responsive) :
    Responsive (.call Vocabulary.any ts) := by
  rw [Responsive, atoms_call]
  refine ⟨flatMap_atoms_ne_nil hne h, fun atom hatom => ?_⟩
  simpa [eval_call] using sways_evalAny hnodup h hatom

/-- A well-formed condition that names no atom twice and has no empty
conjunction responds to each of its atoms. -/
theorem WellFormed.responsive {t : Term} (h : t.WellFormed)
    (hall : .call Vocabulary.all [] ∉ t.subterms) (hnodup : t.atoms.Nodup) :
    t.Responsive := by
  have hbelow : ∀ {name : Bytes} {args : List Term},
      .call Vocabulary.all [] ∉ subterms (.call name args) →
        (atoms (.call name args)).Nodup →
        ∀ arg ∈ args, .call Vocabulary.all [] ∉ arg.subterms ∧
          arg.atoms.Nodup := by
    intro name args hall hnodup arg harg
    rw [atoms_call, List.nodup_flatMap] at hnodup
    exact ⟨fun hmem => hall (mem_subterms.mpr (Or.inr ⟨arg, harg, hmem⟩)),
      hnodup.1 arg harg⟩
  induction h with
  | test => exact responsive_test
  | feature value => exact responsive_feature value
  | @not t h ih =>
      obtain ⟨hall', hnodup'⟩ := hbelow hall hnodup t List.mem_cons_self
      exact (ih hall' hnodup').not
  | @all ts h ih =>
      have hne : ts ≠ [] := by
        rintro rfl
        exact hall (mem_subterms.mpr (Or.inl rfl))
      refine Responsive.all hne (atoms_call _ ts ▸ hnodup) fun t ht => ?_
      obtain ⟨hall', hnodup'⟩ := hbelow hall hnodup t ht
      exact ih t ht hall' hnodup'
  | @any ts hne h ih =>
      refine Responsive.any hne (atoms_call _ ts ▸ hnodup) fun t ht => ?_
      obtain ⟨hall', hnodup'⟩ := hbelow hall hnodup t ht
      exact ih t ht hall' hnodup'

end Term

namespace Item

theorem mem_edges {item : Item} {edge : Edge} (h : edge ∈ item.edges) :
    edge.item = item.node ∧ edge.target ∈ Term.atomsOfList item.conditions := by
  rcases List.mem_append.mp h with h | h
  · obtain ⟨name, hname, rfl⟩ := List.mem_map.mp h
    refine ⟨rfl, ?_⟩
    obtain ⟨t, ht, hfeature⟩ :=
      Term.mem_featuresOfList.mp (FeatureSet.mem_ofList.mp hname)
    exact Term.mem_atomsOfList.mpr ⟨t, ht, Term.feature_mem_atoms.mpr hfeature⟩
  · by_cases htest : item.mentionsTest = true
    · rw [if_pos htest] at h
      obtain rfl := List.mem_singleton.mp h
      refine ⟨rfl, ?_⟩
      obtain ⟨t, ht, hmentions⟩ := Term.anyMentionsTest_iff.mp htest
      exact Term.mem_atomsOfList.mpr ⟨t, ht, Term.test_mem_atoms.mpr hmentions⟩
    · rw [if_neg htest] at h
      exact absurd h List.not_mem_nil

end Item

namespace Lint

theorem no_fault_of_attributeIssues_eq_nil {file : Bytes} {severity : Severity}
    {attr : Attribute} (h : attributeIssues file severity attr = [])
    (finding : Finding) :
    ¬ AttributeFault attr finding := by
  intro hfault
  rw [hfault.attributeIssues_eq] at h
  exact List.cons_ne_nil _ _ h

theorem conditions_ne_nil_of_no_fault {attr : Attribute}
    (hcfg : attr.isCfg = true) (h : ∀ finding, ¬ AttributeFault attr finding) :
    attr.conditions ≠ [] := by
  intro hnil
  cases hargs : attr.args with
  | none => exact h _ (.shape hcfg (by simp [hargs]))
  | eq value => exact h _ (.shape hcfg (by simp [hargs]))
  | paren terms =>
      have hterms : terms = [] := by
        simpa [Attribute.conditions, hcfg, hargs] using hnil
      exact h _ (.empty hcfg (by rw [hargs, hterms]))

theorem termFindings_of_attributeIssues_eq_nil {file : Bytes}
    {severity : Severity} {attr : Attribute}
    (h : attributeIssues file severity attr = []) :
    ∀ t ∈ attr.conditions, termFindings t = [] := by
  rw [attributeIssues_of_no_fault file severity
      (no_fault_of_attributeIssues_eq_nil h),
    List.map_eq_nil_iff, List.flatMap_eq_nil_iff] at h
  exact h

/-- Where there are no issues and nothing is missing, all conditions are
well-formed. -/
theorem wellFormed_of_no_issues {file : Bytes} {item : Item}
    (h : lintAttributes file .warn item.attrs = [])
    (hholes : .hole ∉ Term.subtermsOfList item.conditions) :
    ∀ t ∈ item.conditions, t.WellFormed := by
  intro t ht
  rw [← termFindings_eq_nil_iff fun hhole =>
    hholes (Term.mem_subtermsOfList.mpr ⟨t, ht, hhole⟩)]
  obtain ⟨attr, hattr, ht⟩ := List.mem_flatMap.mp ht
  exact termFindings_of_attributeIssues_eq_nil
    (List.flatMap_eq_nil_iff.mp h attr hattr) t ht

theorem conditions_ne_nil_of_no_issues {file : Bytes} {item : Item}
    (h : lintAttributes file .warn item.attrs = [])
    (hcfg : ∃ attr ∈ item.attrs, attr.isCfg = true) : item.conditions ≠ [] := by
  obtain ⟨attr, hattr, hcfg⟩ := hcfg
  have hissues := List.flatMap_eq_nil_iff.mp h attr hattr
  rw [Item.conditions, Ne, List.flatMap_eq_nil_iff]
  intro hnil
  exact conditions_ne_nil_of_no_fault hcfg
    (no_fault_of_attributeIssues_eq_nil hissues)
    (hnil attr hattr)

end Lint

open Lint

/-- An item without issues that names no atom twice depends on everything the
graph says: for every edge, two options that differ only there decide
differently. So if it has conditions at all, it is neither always included nor
always excluded. -/
theorem edges_sway_item {item : Item} {file : Bytes}
    (hlint : lintAttributes file .warn item.attrs = [])
    (hholes : .hole ∉ Term.subtermsOfList item.conditions)
    (hall : .call Vocabulary.all [] ∉ Term.subtermsOfList item.conditions)
    (honce : (Term.atomsOfList item.conditions).Nodup) (enabled : FeatureSet) :
    (∀ edge ∈ (FeatureGraph.build [item] enabled).edges, edge.item = item.node ∧
      ∃ o₁ o₂ : CompileOptions,
        (∀ other, other ≠ edge.target → o₁.holds other = o₂.holds other)
        ∧ shouldInclude item.attrs o₁ ≠ shouldInclude item.attrs o₂) ∧
    ((∃ attr ∈ item.attrs, attr.isCfg = true) →
      (∃ o, shouldInclude item.attrs o = true) ∧
        ∃ o, shouldInclude item.attrs o = false) := by
  have hwell := wellFormed_of_no_issues hlint hholes
  rw [Term.atomsOfList_eq_flatMap] at honce
  have hresponsive : ∀ t ∈ item.conditions, t.Responsive := by
    intro t ht
    refine (hwell t ht).responsive ?_ ((List.nodup_flatMap.mp honce).1 t ht)
    exact fun hmem => hall (Term.mem_subtermsOfList.mpr ⟨t, ht, hmem⟩)
  have hsways : ∀ atom ∈ item.conditions.flatMap Term.atoms,
      Sways (fun o => shouldInclude item.attrs o) atom := by
    intro atom hatom
    simpa only [Item.shouldInclude_eq_evalAll]
      using Term.sways_evalAll honce hresponsive hatom
  constructor
  · intro edge hedge
    have hedges : (FeatureGraph.build [item] enabled).edges = item.edges :=
      List.flatMap_singleton Item.edges item
    obtain ⟨hitem, htarget⟩ := Item.mem_edges (hedges ▸ hedge)
    rw [Term.atomsOfList_eq_flatMap] at htarget
    exact ⟨hitem, hsways edge.target htarget⟩
  · intro hcfg
    have hne := Term.flatMap_atoms_ne_nil
      (conditions_ne_nil_of_no_issues hlint hcfg) hresponsive
    obtain ⟨atom, hatom⟩ := List.exists_mem_of_ne_nil _ hne
    exact ⟨(hsways atom hatom).attains true, (hsways atom hatom).attains false⟩

/-- An item under `all(test, not(feature = "a"))`, and under
`any(feature = "b", feature = "c")` in an attribute of its own. -/
def fourAtomsItem : Item where
  kind := utf8 "fn"
  name := utf8 "a"
  attrs := [
    ⟨utf8 "cfg", .paren [.call (utf8 "all") [.ident (utf8 "test"),
      .call (utf8 "not") [.keyValue (utf8 "feature") (utf8 "a")]]], {}⟩,
    ⟨utf8 "cfg", .paren [.call (utf8 "any")
      [.keyValue (utf8 "feature") (utf8 "b"),
        .keyValue (utf8 "feature") (utf8 "c")]], {}⟩]

/-- All four atoms of an item with nested conditions decide about it. -/
theorem edges_sway_item_four_atoms :
    lintAttributes [] .warn fourAtomsItem.attrs = []
      ∧ .hole ∉ Term.subtermsOfList fourAtomsItem.conditions
      ∧ .call Vocabulary.all [] ∉ Term.subtermsOfList fourAtomsItem.conditions
      ∧ (Term.atomsOfList fourAtomsItem.conditions).Nodup
      ∧ (∃ attr ∈ fourAtomsItem.attrs, attr.isCfg = true)
      ∧ (FeatureGraph.build [fourAtomsItem] .empty).edges.length = 4
      ∧ (∀ edge ∈ (FeatureGraph.build [fourAtomsItem] .empty).edges,
        edge.item = fourAtomsItem.node ∧ ∃ o₁ o₂ : CompileOptions,
          (∀ other, other ≠ edge.target → o₁.holds other = o₂.holds other)
            ∧ shouldInclude fourAtomsItem.attrs o₁ ≠
              shouldInclude fourAtomsItem.attrs o₂)
      ∧ (∃ o, shouldInclude fourAtomsItem.attrs o = true)
      ∧ ∃ o, shouldInclude fourAtomsItem.attrs o = false := by
  have hlint : lintAttributes [] .warn fourAtomsItem.attrs = [] := by
    decide +kernel
  have hholes : .hole ∉ Term.subtermsOfList fourAtomsItem.conditions := by
    decide +kernel
  have hall : .call Vocabulary.all
      [] ∉ Term.subtermsOfList fourAtomsItem.conditions := by
    decide +kernel
  have honce : (Term.atomsOfList fourAtomsItem.conditions).Nodup := by
    decide +kernel
  have hcfg : ∃ attr ∈ fourAtomsItem.attrs, attr.isCfg = true := by
    decide +kernel
  obtain ⟨hedges, hboth⟩ := edges_sway_item hlint hholes hall honce .empty
  exact ⟨hlint, hholes, hall, honce, hcfg,
    by decide +kernel, hedges, hboth hcfg⟩

end FeatureGate
