import Mathlib
import FeatureGate.Proofs.Faults

/-!
The gate that linting is. With always-false conditions as errors it lets exactly
the well-formed conditions pass; the other modes change severities only, or
report nothing.
-/

namespace FeatureGate

open Place

namespace Term

/-- The conditions in which every name is known and every call has the arguments
it needs. -/
inductive WellFormed : Term → Prop
  | test : WellFormed (.ident Vocabulary.test)
  | feature (value : Bytes) : WellFormed (.keyValue Vocabulary.feature value)
  | not {t : Term} (h : WellFormed t) : WellFormed (.call Vocabulary.not [t])
  | all {ts : List Term}
      (h : ∀ t ∈ ts, WellFormed t) : WellFormed (.call Vocabulary.all ts)
  | any {ts : List Term} (hne : ts ≠ []) (h : ∀ t ∈ ts, WellFormed t) :
      WellFormed (.call Vocabulary.any ts)

mutual

def subterms : Term → List Term
  | .call name args => .call name args :: subtermsOfList args
  | t => [t]

/-- The terms of a list and all terms below them. -/
def subtermsOfList : List Term → List Term
  | [] => []
  | t :: ts => subterms t ++ subtermsOfList ts

end

theorem mem_subtermsOfList {ts : List Term} {u : Term} :
    u ∈ subtermsOfList ts ↔ ∃ t ∈ ts, u ∈ t.subterms := by
  induction ts with
  | nil => simp [subtermsOfList]
  | cons t ts ih => simp [subtermsOfList, ih]

theorem mem_subterms {t u : Term} :
    u ∈ t.subterms ↔ u = t ∨ ∃ part ∈ t.parts, u ∈ part.subterms := by
  cases t <;> simp [subterms, parts, mem_subtermsOfList]

theorem wellFormed_ident_iff {name : Bytes} :
    WellFormed (.ident name) ↔ name = Vocabulary.test := by
  constructor
  · intro h
    cases h
    rfl
  · rintro rfl
    exact .test

theorem wellFormed_keyValue_iff {key value : Bytes} :
    WellFormed (.keyValue key value) ↔ key = Vocabulary.feature := by
  constructor
  · intro h
    cases h
    rfl
  · rintro rfl
    exact .feature value

theorem wellFormed_call_iff {name : Bytes} {args : List Term} :
    WellFormed (.call name args) ↔
      ((name = Vocabulary.not ∧ args.length = 1) ∨ name = Vocabulary.all
        ∨ (name = Vocabulary.any ∧ args ≠ [])) ∧ ∀ t ∈ args, WellFormed t := by
  constructor
  · intro h
    cases h with
    | not h => simpa using h
    | all h => exact ⟨Or.inr (Or.inl rfl), h⟩
    | any hne h => exact ⟨Or.inr (Or.inr ⟨rfl, hne⟩), h⟩
  · rintro ⟨⟨rfl, hlength⟩ | rfl | ⟨rfl, hne⟩, h⟩
    · obtain ⟨t, rfl⟩ := List.length_eq_one_iff.mp hlength
      exact .not (h t List.mem_cons_self)
    · exact .all h
    · exact .any hne h

end Term

namespace Lint

/-- A condition is well-formed when it is not at fault itself and all below it
is well-formed. -/
theorem wellFormed_iff_no_fault {t : Term} (h : t ≠ .hole) :
    t.WellFormed ↔ (∀ finding, ¬ TermFault t finding) ∧
      ∀ part ∈ t.parts, part.WellFormed := by
  cases t with
  | ident name =>
      simp [Term.wellFormed_ident_iff, no_fault_ident_iff, Term.parts]
  | keyValue key value =>
      simp [Term.wellFormed_keyValue_iff, no_fault_keyValue_iff, Term.parts]
  | call name args =>
      rw [Term.wellFormed_call_iff, no_fault_call_iff, Term.parts]
  | hole => exact absurd rfl h

/-- Nothing is found in exactly the well-formed conditions. -/
theorem termFindings_eq_nil_iff {t : Term} (h : .hole ∉ t.subterms) :
    termFindings t = [] ↔ t.WellFormed := by
  induction t using Term.induction_parts with
  | h t ih =>
      rw [Term.mem_subterms, not_or, not_exists] at h
      rw [wellFormed_iff_no_fault (Ne.symm h.1)]
      by_cases hfault : ∃ finding, TermFault t finding
      · obtain ⟨finding, hfault⟩ := hfault
        rw [hfault.termFindings_eq]
        exact iff_of_false (List.cons_ne_nil _ _) fun hnone =>
          hnone.1 finding hfault
      · rw [not_exists] at hfault
        rw [termFindings_of_no_fault hfault, List.flatMap_eq_nil_iff]
        constructor
        · intro hnil
          exact ⟨hfault, fun part hpart =>
            (ih part hpart fun hhole => h.2 part ⟨hpart, hhole⟩).mp
              (hnil part hpart)⟩
        · rintro ⟨-, hparts⟩ part hpart
          exact (ih part hpart fun hhole => h.2 part ⟨hpart, hhole⟩).mpr
            (hparts part hpart)

namespace Mode

theorem ofName_ignore : ofName (utf8 "ignore") = ignore := by decide

theorem ofName_error : ofName (utf8 "error") = error := by decide

theorem ofName_eq_warn {name : Bytes} (hignore : name ≠ utf8 "ignore")
    (herror : name ≠ utf8 "error") : ofName name = warn := by
  simp [ofName, hignore, herror]

theorem ofName_ne_ignore {name : Bytes} (h : name ≠ utf8 "ignore") :
    ofName name ≠ ignore := by
  unfold ofName
  split
  · contradiction
  · split <;> simp

end Mode

/-- The issue with the severity that always-false conditions have outside the
error mode. -/
def Issue.lowered (issue : Issue) : Issue :=
  if issue.finding.code ∈ alwaysFalseCodes then
    { issue with severity := .warning }
  else issue

theorem lowered_issueOf (file : Bytes) (attr : Attribute) (finding : Finding) :
    (issueOf file .error attr finding).lowered =
      issueOf file .warning attr finding := by
  by_cases hcode : finding.code ∈ alwaysFalseCodes
    <;> simp [Issue.lowered, issueOf, hcode]

/-- Outside the error mode there are the same issues, less grave. -/
theorem attributeIssues_warning (file : Bytes) (attr : Attribute) :
    attributeIssues file .warning attr = (attributeIssues file .error attr).map
      Issue.lowered := by
  obtain ⟨findings, -, hissues⟩ := exists_attributeFindings attr
  rw [hissues, hissues, List.map_map]
  exact List.map_congr_left fun finding _ =>
    (lowered_issueOf file attr finding).symm

theorem hasErrors_flatMap {α : Type} (f : α → List Issue) (xs : List α) :
    hasErrors (xs.flatMap f) = xs.any fun x => hasErrors (f x) :=
  List.any_flatMap

theorem hasErrors_attributeIssues_warning (file : Bytes) (attr : Attribute) :
    hasErrors (attributeIssues file .warning attr) = false := by
  obtain ⟨findings, -, hissues⟩ := exists_attributeFindings attr
  simp [hissues, hasErrors, issueOf]

theorem AttributeFault.conditions_eq {attr : Attribute} {finding : Finding}
    (h : AttributeFault attr finding) : attr.conditions = [] := by
  cases h with
  | empty hcfg hargs => simp [Attribute.conditions, hargs]
  | shape hcfg hargs =>
      cases hcase : attr.args with
      | none => simp [Attribute.conditions, hcase]
      | eq value => simp [Attribute.conditions, hcase]
      | paren terms => exact absurd hcase (hargs terms)

theorem hasErrors_attributeIssues_error (file : Bytes) (attr : Attribute) :
    hasErrors (attributeIssues file .error attr) = false
      ↔ ∀ t ∈ attr.conditions, termFindings t = [] := by
  by_cases hfault : ∃ finding, AttributeFault attr finding
  · obtain ⟨finding, hfault⟩ := hfault
    have hcode := not_mem_alwaysFalseCodes _ hfault.code_mem
    rw [hfault.attributeIssues_eq, hfault.conditions_eq]
    exact iff_of_true (by simp [hasErrors, issueOf, hcode]) (by simp)
  · rw [attributeIssues_of_no_fault file .error (not_exists.mp hfault),
      ← List.flatMap_eq_nil_iff]
    constructor
    · intro hnone
      apply List.eq_nil_iff_forall_not_mem.mpr
      intro finding hfinding
      obtain ⟨t, -, hmem⟩ := List.mem_flatMap.mp hfinding
      have hseverity : (issueOf file .error attr finding).severity = .error :=
        if_pos (code_mem_of_mem_termFindings hmem)
      have hnot := List.any_eq_false.mp hnone _ (List.mem_map_of_mem hfinding)
      simp [hseverity] at hnot
    · intro hnil
      rw [hnil]
      rfl

theorem lintAttributes_of_ne_ignore (file : Bytes) {mode : Mode}
    (h : mode ≠ .ignore) (attrs : List Attribute) :
    lintAttributes file mode attrs = attrs.flatMap
      (attributeIssues file mode.severity) := by
  cases mode with
  | ignore => exact absurd rfl h
  | warn => rfl
  | error => rfl

theorem lintItems_of_ne_ignore (file : Bytes) {mode : Mode} (h : mode ≠ .ignore)
    (items : List Item) :
    lintItems file mode items =
      items.flatMap fun item =>
        item.attrs.flatMap (attributeIssues file mode.severity) := by
  simp only [lintItems, lintAttributes_of_ne_ignore file h]

theorem lintItems_ignore (file : Bytes) (items : List Item) :
    lintItems file .ignore items = [] := by
  simp [lintItems, lintAttributes]

/-- The warn mode reports what the error mode does, less grave. -/
theorem lintItems_warn (file : Bytes) (items : List Item) :
    lintItems file .warn items =
      (lintItems file .error items).map Issue.lowered := by
  rw [lintItems_of_ne_ignore file (by simp),
    lintItems_of_ne_ignore file (by simp)]
  simp only [List.map_flatMap, Mode.severity, ← attributeIssues_warning]

theorem hasErrors_lintItems_warn (file : Bytes) (items : List Item) :
    hasErrors (lintItems file .warn items) = false := by
  rw [lintItems_of_ne_ignore file (by simp)]
  simp [hasErrors_flatMap, Mode.severity, hasErrors_attributeIssues_warning]

/-- In the error mode items pass exactly if none of their conditions is at
fault. -/
theorem hasErrors_lintItems_error (file : Bytes) (items : List Item) :
    hasErrors (lintItems file .error items) = false
      ↔ ∀ item ∈ items, ∀ t ∈ item.conditions, termFindings t = [] := by
  rw [lintItems_of_ne_ignore file (by simp)]
  simp only [hasErrors_flatMap, List.any_eq_false, Bool.not_eq_true,
    Mode.severity, hasErrors_attributeIssues_error, Item.conditions,
    List.mem_flatMap]
  grind

def attributeAt? (items : List Item) : Place → Option Attribute
  | i :: j :: _ => items[i]?.bind fun item => item.attrs[j]?
  | _ => none

/-- The issues of items are their outermost faults, in the order of the text. -/
theorem inOrder_lintItems (file : Bytes) {mode : Mode} (h : mode ≠ .ignore)
    (items : List Item) :
    InOrder (fun place issue => ∃ attr finding,
      attributeAt? items place = some attr
        ∧ attr.isCfg = true ∧ Outermost (FaultAt items) place finding
        ∧ issue = issueOf file mode.severity attr finding)
      (lintItems file mode items) := by
  rw [lintItems_of_ne_ignore file h]
  have hitems := inOrder_below fun item (_ : item ∈ items) =>
    inOrder_below fun attr (_ : attr ∈ item.attrs) =>
      inOrder_attributeIssues file mode.severity attr
  refine hitems.congr fun place issue => ?_
  simp only [FaultAt, outermost_below]
  match place with
  | [] => simp [Below, AtOrBelow, attributeAt?]
  | [i] => simp [Below, AtOrBelow, attributeAt?]
  | i :: j :: rest =>
      simp only [Below, AtOrBelow, attributeAt?, Option.bind_eq_some_iff]
      grind

theorem flatMap_attributeIssues_filter (file : Bytes) (severity : Severity)
    (attrs : List Attribute) :
    (attrs.filter Attribute.isCfg).flatMap (attributeIssues file severity)
      = attrs.flatMap (attributeIssues file severity) := by
  induction attrs with
  | nil => rfl
  | cons attr attrs ih =>
      rw [List.flatMap_cons, ← ih]
      by_cases hcfg : attr.isCfg = true
      · rw [List.filter_cons_of_pos hcfg, List.flatMap_cons]
      · rw [List.filter_cons_of_neg hcfg]
        simp [attributeIssues, hcfg]

def onlyCfg (item : Item) : Item :=
  { item with attrs := item.attrs.filter Attribute.isCfg }

/-- Attributes other than `cfg` make no difference. -/
theorem lintItems_map_onlyCfg (file : Bytes) (mode : Mode) (items : List Item) :
    lintItems file mode (items.map onlyCfg) = lintItems file mode items := by
  by_cases hmode : mode = .ignore
  · rw [hmode, lintItems_ignore, lintItems_ignore]
  · rw [lintItems_of_ne_ignore file hmode, lintItems_of_ne_ignore file hmode,
      List.flatMap_map]
    simp only [onlyCfg, flatMap_attributeIssues_filter]

end Lint

open Lint

/-- Linting accepts exactly the well-formed conditions. With always-false
conditions as errors, there is an error unless every condition is well-formed.
Any other mode but `ignore`, which reports nothing, gives the same issues with
these severities lowered. The issues stand for the outermost faults, in the
order of their places; attributes other than `cfg` play no part. -/
theorem lint_accepts_wellFormed (file : Bytes) (items : List Item) :
    ((∀ item ∈ items, .hole ∉ Term.subtermsOfList item.conditions) →
      (hasErrors (lintItems file (.ofName (utf8 "error")) items) = false ↔
        ∀ item ∈ items, ∀ t ∈ item.conditions, t.WellFormed)) ∧
    (∀ name, name ≠ utf8 "ignore" → name ≠ utf8 "error" →
      lintItems file (.ofName name) items
          = (lintItems file (.ofName (utf8 "error")) items).map Issue.lowered
        ∧ hasErrors (lintItems file (.ofName name) items) = false) ∧
    lintItems file (.ofName (utf8 "ignore")) items = [] ∧
    (∀ name, name ≠ utf8 "ignore" →
      InOrder (fun place issue => ∃ attr finding,
        attributeAt? items place = some attr
          ∧ attr.isCfg = true ∧ Outermost (FaultAt items) place finding
          ∧ issue = issueOf file (Mode.ofName name).severity attr finding)
        (lintItems file (.ofName name) items)) ∧
    ∀ name, lintItems file (.ofName name) (items.map onlyCfg)
      = lintItems file (.ofName name) items := by
  refine ⟨?_, ?_, ?_, ?_, ?_⟩
  · intro hholes
    rw [Mode.ofName_error, hasErrors_lintItems_error]
    have hiff : ∀ item ∈ items, ∀ t ∈ item.conditions, termFindings t = [] ↔
        t.WellFormed := by
      intro item hitem t ht
      apply termFindings_eq_nil_iff
      exact fun hhole =>
        hholes item hitem (Term.mem_subtermsOfList.mpr ⟨t, ht, hhole⟩)
    constructor
    · exact fun hnil item hitem t ht => (hiff item hitem t ht).mp
        (hnil item hitem t ht)
    · exact fun hwell item hitem t ht => (hiff item hitem t ht).mpr
        (hwell item hitem t ht)
  · intro name hignore herror
    rw [Mode.ofName_eq_warn hignore herror, Mode.ofName_error]
    exact ⟨lintItems_warn file items, hasErrors_lintItems_warn file items⟩
  · rw [Mode.ofName_ignore, lintItems_ignore]
  · intro name hignore
    exact inOrder_lintItems file (Mode.ofName_ne_ignore hignore) items
  · exact fun name => lintItems_map_onlyCfg file (.ofName name) items

/-- An item under `not(all(test, near(bogus)))` and `feature = "x"`, where
`near` is no known function. -/
def nearBogusItem : Item where
  kind := utf8 "fn"
  name := utf8 "a"
  attrs := [⟨utf8 "doc", .paren [.ident (utf8 "bogus")], {}⟩,
    ⟨utf8 "cfg", .paren [
      .call (utf8 "not") [.call (utf8 "all")
        [.ident (utf8 "test"), .call (utf8 "near") [.ident (utf8 "bogus")]]],
      .keyValue (utf8 "feature") (utf8 "x")], {}⟩]

theorem lint_accepts_wellFormed_unknown_function :
    (∀ item ∈ [nearBogusItem], .hole ∉ Term.subtermsOfList item.conditions)
      ∧ hasErrors (lintItems [] (.ofName (utf8 "error")) [nearBogusItem]) = true
      ∧ (¬ ∀ item ∈ [nearBogusItem], ∀ t ∈ item.conditions, t.WellFormed)
      ∧ utf8 "quiet" ≠ utf8 "ignore" ∧ utf8 "quiet" ≠ utf8 "error"
      ∧ lintItems [] (.ofName (utf8 "quiet")) [nearBogusItem]
        = (lintItems [] (.ofName (utf8 "error")) [nearBogusItem]).map
          Issue.lowered := by
  have hholes : ∀ item ∈ [nearBogusItem],
      .hole ∉ Term.subtermsOfList item.conditions := by
    decide +kernel
  have herrors : hasErrors (lintItems [] (.ofName (utf8 "error"))
      [nearBogusItem]) = true := by
    decide +kernel
  have hignore : utf8 "quiet" ≠ utf8 "ignore" := by decide +kernel
  have herror : utf8 "quiet" ≠ utf8 "error" := by decide +kernel
  refine ⟨hholes, herrors, fun hwell => ?_, hignore, herror, ?_⟩
  · have hnone :=
      ((lint_accepts_wellFormed [] [nearBogusItem]).1 hholes).mpr hwell
    simp [herrors] at hnone
  · exact ((lint_accepts_wellFormed [] [nearBogusItem]).2.1 _ hignore herror).1

end FeatureGate
