import Mathlib
import FeatureGate.Proofs.Dependence
import FeatureGate.Proofs.LintGate

/-!
What issues say about evaluation. A condition reported as always false is false
under all options, and an attribute reported as always including the item holds
under all options.
-/

namespace FeatureGate

open Place

namespace Term

/-- Negation of anything but one condition is false. -/
theorem evalNot_of_length_ne {o : CompileOptions} {args : List Term}
    (h : args.length ≠ 1) :
    evalNot o args = false := by
  match args with
  | [] => rfl
  | [_] => exact absurd rfl h
  | _ :: _ :: _ => rfl

theorem evalAll_eq_false {o : CompileOptions} {ts : List Term} {t : Term}
    (ht : t ∈ ts) (h : t.eval o = false) : evalAll o ts = false := by
  rw [evalAll_eq_all, List.all_eq_false]
  exact ⟨t, ht, by simp [h]⟩

/-- A conjunction fails with any of its parts, also through further
conjunctions. -/
theorem eval_eq_false_of_sub? {o : CompileOptions} {t u : Term} {place : Place}
    (hsub : t.sub? place = some u)
    (hall : ∀ above, above <+: place → above ≠ place →
      ∃ args, t.sub? above = some (.call Vocabulary.all args))
    (h : u.eval o = false) : t.eval o = false := by
  induction place generalizing t with
  | nil =>
      obtain rfl := Option.some.inj hsub
      exact h
  | cons i place ih =>
      obtain ⟨args, hargs⟩ :=
        hall [] List.nil_prefix (List.cons_ne_nil i place).symm
      obtain rfl := Option.some.inj hargs
      obtain ⟨part, hpart, hsub⟩ := Option.bind_eq_some_iff.mp hsub
      have hfalse : part.eval o = false := by
        refine ih hsub fun above hpath hne => ?_
        obtain ⟨args', habove⟩ :=
          hall (i :: above) (List.cons_prefix_cons.mpr ⟨rfl, hpath⟩)
            fun heq => hne (List.cons.inj heq).2
        refine ⟨args', ?_⟩
        simpa [sub?, hpart] using habove
      rw [eval_call, if_neg Vocabulary.all_ne_not, if_pos rfl]
      exact evalAll_eq_false (List.mem_of_getElem? hpart) hfalse

end Term

namespace Attribute

/-- The condition at a place of an attribute; the attribute itself is none. -/
def conditionAt? (attr : Attribute) : Place → Option Term
  | [] => none
  | i :: place => attr.conditions[i]?.bind fun t => t.sub? place

/-- All conditions above the place are conjunctions. -/
def UnderAll (attr : Attribute) (place : Place) : Prop :=
  ∀ above, above <+: place → above ≠ [] → above ≠ place →
    ∃ args, attr.conditionAt? above = some (.call Vocabulary.all args)

theorem eval_eq_evalAll {attr : Attribute} (h : attr.isCfg = true)
    (o : CompileOptions) :
    attr.eval o = Term.evalAll o attr.conditions := by
  cases hargs : attr.args <;> simp [eval, conditions, h, hargs, Term.evalAll]

/-- A false condition with nothing but conjunctions above it makes the attribute
false. -/
theorem eval_eq_false_of_underAll {attr : Attribute} (hcfg : attr.isCfg = true)
    {place : Place} {t : Term} (ht : attr.conditionAt? place = some t)
    (hall : attr.UnderAll place) {o : CompileOptions} (h : t.eval o = false) :
    attr.eval o = false := by
  rw [eval_eq_evalAll hcfg]
  cases place with
  | nil => simp [conditionAt?] at ht
  | cons i place =>
      obtain ⟨top, htop, hsub⟩ := Option.bind_eq_some_iff.mp ht
      refine Term.evalAll_eq_false (List.mem_of_getElem? htop) ?_
      refine Term.eval_eq_false_of_sub? hsub (fun above hpath hne => ?_) h
      obtain ⟨args, hargs⟩ :=
        hall (i :: above) (List.cons_prefix_cons.mpr ⟨rfl, hpath⟩)
          (List.cons_ne_nil i above) fun heq => hne (List.cons.inj heq).2
      exact ⟨args, by simpa [conditionAt?, htop] using hargs⟩

end Attribute

theorem shouldInclude_eq_false {attrs : List Attribute} {attr : Attribute}
    (hattr : attr ∈ attrs) (hcfg : attr.isCfg = true) {o : CompileOptions}
    (h : attr.eval o = false) :
    shouldInclude attrs o = false := by
  rw [shouldInclude, List.all_eq_false]
  exact ⟨attr, hattr, by simp [hcfg, h]⟩

theorem shouldInclude_eq_evalAll (attrs : List Attribute) (o : CompileOptions) :
    shouldInclude attrs o = Term.evalAll o
      (attrs.flatMap Attribute.conditions) :=
  Item.shouldInclude_eq_evalAll { kind := [], name := [], attrs := attrs } o

/-- An attribute that holds can be left out. -/
theorem shouldInclude_eraseIdx {attrs : List Attribute} {j : Nat}
    {attr : Attribute} (hattr : attrs[j]? = some attr) {o : CompileOptions}
    (h : attr.eval o = true) :
    shouldInclude (attrs.eraseIdx j) o = shouldInclude attrs o := by
  unfold shouldInclude
  induction attrs generalizing j with
  | nil => rfl
  | cons first attrs ih =>
      cases j with
      | zero =>
          obtain rfl := Option.some.inj hattr
          simp [h]
      | succ j =>
          rw [List.eraseIdx_cons_succ, List.all_cons, List.all_cons, ih hattr]

namespace Lint

/-- A condition at fault is false under all options. -/
theorem TermFault.eval_eq_false {t : Term} {finding : Finding}
    (h : TermFault t finding) (o : CompileOptions) : t.eval o = false := by
  cases h with
  | predicate h => simp [Term.eval, h]
  | key h => simp [Term.eval, h]
  | function h =>
      simp only [List.mem_cons, List.not_mem_nil, or_false, not_or] at h
      simp [Term.eval_call, h]
  | arity h => simp [Term.eval_call, Term.evalNot_of_length_ne h]
  | choice => simp [Term.eval_call, Term.evalAny]

/-- An attribute at fault holds under all options. -/
theorem AttributeFault.eval_eq_true {attr : Attribute} {finding : Finding}
    (h : AttributeFault attr finding) (o : CompileOptions) :
    attr.eval o = true := by
  rw [Attribute.eval_eq_evalAll h.isCfg, h.conditions_eq]
  rfl

/-- The issue reported for a place tells the truth about it. -/
inductive Tells (attrs : List Attribute) : Place → Issue → Prop
  /-- The condition at the place is false under all options, and if only
  conjunctions stand above it, so is the whole list. -/
  | condition {j : Nat} {path : Place} {attr : Attribute} {t : Term}
      {issue : Issue}
      (hattr : attrs[j]? = some attr) (hcfg : attr.isCfg = true)
      (hspan : issue.span = attr.span)
        (hcode : issue.finding.code ∈ alwaysFalseCodes)
      (hat : attr.conditionAt? path = some t)
        (hfault : TermFault t issue.finding)
      (heval : ∀ o, t.eval o = false)
      (hall : attr.UnderAll path → ∀ o, shouldInclude attrs o = false) :
      Tells attrs (j :: path) issue
  /-- The attribute at the place holds under all options, and makes no
  difference. -/
  | attribute {j : Nat} {attr : Attribute} {issue : Issue}
      (hattr : attrs[j]? = some attr) (hcfg : attr.isCfg = true)
      (hspan : issue.span = attr.span)
        (hcode : issue.finding.code ∈ alwaysTrueCodes)
      (heval : ∀ o, attr.eval o = true)
      (hremoved : ∀ o,
        shouldInclude (attrs.eraseIdx j) o = shouldInclude attrs o) :
      Tells attrs [j] issue

theorem tells_of_fault {attrs : List Attribute} {j : Nat} {attr : Attribute}
    (hattr : attrs[j]? = some attr) {path : Place} {finding : Finding}
    (hfault : AttributeFaultAt attr path finding) (file : Bytes)
    (severity : Severity) :
    Tells attrs (j :: path) (issueOf file severity attr finding) := by
  have hcfg := hfault.isCfg
  cases path with
  | nil =>
      have hfault : AttributeFault attr finding := hfault
      exact .attribute hattr hcfg rfl hfault.code_mem hfault.eval_eq_true
        fun o => shouldInclude_eraseIdx hattr (hfault.eval_eq_true o)
  | cons i place =>
      obtain ⟨top, htop, t, hsub, hfault⟩ := hfault
      have hat : attr.conditionAt? (i :: place) = some t := by
        simp [Attribute.conditionAt?, htop, hsub]
      refine .condition hattr hcfg rfl hfault.code_mem hat hfault
        hfault.eval_eq_false
        fun hall o => ?_
      exact shouldInclude_eq_false (List.mem_of_getElem? hattr) hcfg
        (Attribute.eval_eq_false_of_underAll hcfg hat hall
          (hfault.eval_eq_false o))

end Lint

open Lint

/-- Every issue is true of the place it is reported for: what it calls always
false is false under all options, and what it says always includes the item
makes no difference under any. -/
theorem lint_issues_tell_truth (file : Bytes) (attrs : List Attribute)
    {name : Bytes} (hname : name ≠ utf8 "ignore") :
    ∃ reports : List (Place × Issue), reports.Pairwise (fun a b => a.1 < b.1)
      ∧ reports.map Prod.snd = lintAttributes file (.ofName name) attrs
      ∧ ∀ report ∈ reports, Tells attrs report.1 report.2 := by
  rw [lintAttributes_of_ne_ignore file (Mode.ofName_ne_ignore hname)]
  obtain ⟨reports, hascending, hmem, hissues⟩ :=
    inOrder_below fun attr (_ : attr ∈ attrs) =>
      inOrder_attributeIssues file (Mode.ofName name).severity attr
  refine ⟨reports, hascending, hissues, ?_⟩
  rintro ⟨place, issue⟩ hreport
  have hdue := (hmem place issue).mp hreport
  cases place with
  | nil => exact absurd hdue not_false
  | cons j path =>
      obtain ⟨attr, hattr, -, finding, hfault, rfl⟩ := hdue
      exact tells_of_fault hattr hfault.1 file _

/-- A misplaced `not` under a conjunction, a bare `cfg`, and an unknown name
under a disjunction. -/
theorem lint_issues_tell_truth_three :
    utf8 "loud" ≠ utf8 "ignore" ∧ ∃ reports : List (Place × Issue),
      reports.Pairwise (fun a b => a.1 < b.1)
        ∧ reports.map Prod.snd = lintAttributes [] (.ofName (utf8 "loud"))
          [⟨utf8 "cfg", .paren [.call (utf8 "all") [.call (utf8 "not") []]], {}⟩,
            ⟨utf8 "cfg", .none, {}⟩,
            ⟨utf8 "cfg", .paren [.call (utf8 "any") [.ident (utf8 "bogus")]], {}⟩]
        ∧ reports.length = 3
        ∧ ∀ report ∈ reports, Tells
          [⟨utf8 "cfg", .paren [.call (utf8 "all") [.call (utf8 "not") []]], {}⟩,
            ⟨utf8 "cfg", .none, {}⟩,
            ⟨utf8 "cfg", .paren [.call (utf8 "any") [.ident (utf8 "bogus")]], {}⟩]
          report.1 report.2 := by
  have hname : utf8 "loud" ≠ utf8 "ignore" := by decide +kernel
  obtain ⟨reports, hascending, hissues, htells⟩ := lint_issues_tell_truth []
    [⟨utf8 "cfg", .paren [.call (utf8 "all") [.call (utf8 "not") []]], {}⟩,
      ⟨utf8 "cfg", .none, {}⟩, ⟨utf8 "cfg",
        .paren [.call (utf8 "any") [.ident (utf8 "bogus")]], {}⟩] hname
  refine ⟨hname, reports, hascending, hissues, ?_, htells⟩
  rw [← List.length_map Prod.snd, hissues]
  decide +kernel

end FeatureGate
