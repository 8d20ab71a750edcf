import Mathlib
import FeatureGate.Lint
import FeatureGate.FeatureGraph

/-!
Where conditions are at fault. A place is a path from a root down to a node; the
lexicographic order of places is the order of a walk that comes to a node before
the nodes below it. The findings are the faults above which there is no other,
in the order of their places.
-/

namespace FeatureGate

/-- A path into a tree: at each level, the index of the child to go to. -/
abbrev Place := List Nat

namespace Place

variable {α β γ : Type}

/-- The values stand in the order of their places, one for every place at which
one is due. -/
def InOrder (due : Place → β → Prop) (values : List β) : Prop :=
  ∃ reports : List (Place × β), reports.Pairwise (fun a b => a.1 < b.1)
    ∧ (∀ place value, (place, value) ∈ reports ↔ due place value)
    ∧ reports.map Prod.snd = values

/-- What is due at a node itself, and at its children below the index of
each. -/
def AtOrBelow (root : β → Prop) (due : α → Place → β → Prop)
    (children : List α) :
    Place → β → Prop
  | [], value => root value
  | i :: place, value =>
      ∃ child, children[i]? = some child ∧ due child place value

/-- What is due at the children only. -/
def Below (due : α → Place → β → Prop) (children : List α) : Place → β → Prop :=
  AtOrBelow (fun _ => False) due children

theorem InOrder.congr {due due' : Place → β → Prop} {values : List β}
    (h : InOrder due values)
    (hiff : ∀ place value, due place value ↔ due' place value) :
    InOrder due' values := by
  obtain ⟨reports, hascending, hmem, hvalues⟩ := h
  exact ⟨reports, hascending,
    fun place value => (hmem place value).trans (hiff place value), hvalues⟩

theorem InOrder.exists_place {due : Place → β → Prop} {values : List β}
    (h : InOrder due values) {value : β} (hvalue : value ∈ values) :
    ∃ place, due place value := by
  obtain ⟨reports, -, hmem, rfl⟩ := h
  obtain ⟨⟨place, value⟩, hreport, rfl⟩ := List.mem_map.mp hvalue
  exact ⟨place, (hmem place value).mp hreport⟩

theorem inOrder_root (value : β) :
    InOrder (fun place other => place = [] ∧ other = value) [value] :=
  ⟨[([], value)], List.pairwise_singleton _ _, by simp, rfl⟩

theorem InOrder.map {due : Place → β → Prop} {values : List β}
    (h : InOrder due values) (f : β → γ) :
    InOrder (fun place other => ∃ value,
      due place value ∧ other = f value) (values.map f) := by
  obtain ⟨reports, hascending, hmem, rfl⟩ := h
  refine ⟨reports.map fun report => (report.1, f report.2), ?_, ?_, by simp⟩
  · rw [List.pairwise_map]
    exact hascending
  · intro place other
    simp only [List.mem_map, Prod.exists, Prod.mk.injEq, ← hmem]
    grind

/-- The place once another child stands before those it leads to. -/
def next : Place → Place
  | [] => []
  | i :: place => (i + 1) :: place

theorem next_eq_nil_iff {place : Place} : next place = [] ↔ place = [] := by
  cases place <;> simp [next]

theorem next_ne_zero_cons {place rest : Place} : next place ≠ 0 :: rest := by
  cases place <;> simp [next]

theorem next_eq_succ_cons_iff {i : Nat} {place rest : Place} :
    next place = (i + 1) :: rest ↔ place = i :: rest := by
  cases place <;> simp [next]

/-- Going on to the next child keeps the order of places. -/
theorem next_lt_next {place place' : Place} (hne : place ≠ [])
    (hlt : place < place') :
    next place < next place' := by
  cases place with
  | nil => exact absurd rfl hne
  | cons i place =>
      cases place' with
      | nil => exact absurd hlt (List.not_lt_nil _)
      | cons j place' =>
          rw [next, next, List.cons_lt_cons_iff]
          rcases List.cons_lt_cons_iff.mp hlt with hindex | ⟨rfl, hrest⟩
          · exact Or.inl (Nat.succ_lt_succ hindex)
          · exact Or.inr ⟨rfl, hrest⟩

/-- What lies below the first child comes before all others. -/
theorem zero_cons_lt_next {place place' : Place} (hne : place' ≠ []) :
    0 :: place < next place' := by
  cases place' with
  | nil => exact absurd rfl hne
  | cons j place' => exact List.cons_lt_cons_iff.mpr (Or.inl (Nat.succ_pos j))

/-- Values that are in order at each child are in order at all children, one
after another. -/
theorem inOrder_below {due : α → Place → β → Prop} {values : α → List β}
    {children : List α}
    (h : ∀ child ∈ children, InOrder (due child) (values child)) :
    InOrder (Below due children) (children.flatMap values) := by
  induction children with
  | nil =>
      refine ⟨[], .nil, fun place value => ?_, rfl⟩
      cases place <;> simp [Below, AtOrBelow]
  | cons child children ih =>
      rw [List.forall_mem_cons] at h
      obtain ⟨first, hfirst, hmemFirst, hvaluesFirst⟩ := h.1
      obtain ⟨rest, hrest, hmemRest, hvaluesRest⟩ := ih h.2
      have hne : ∀ report ∈ rest, report.1 ≠ [] := by
        rintro ⟨place, value⟩ hmem rfl
        exact (hmemRest [] value).mp hmem
      -- The places of the first child begin with 0, and those of the others
      -- move up by one.
      refine ⟨first.map (fun report => (0 :: report.1, report.2))
        ++ rest.map (fun report => (next report.1, report.2)), ?_, ?_, ?_⟩
      · rw [List.pairwise_append, List.pairwise_map, List.pairwise_map]
        refine ⟨?_, ?_, ?_⟩
        · exact hfirst.imp fun hlt => List.cons_lt_cons_iff.mpr
            (Or.inr ⟨rfl, hlt⟩)
        · exact hrest.imp_of_mem fun hmem _ hlt => next_lt_next (hne _ hmem) hlt
        · intro report hreport report' hreport'
          obtain ⟨report, -, rfl⟩ := List.mem_map.mp hreport
          obtain ⟨report', hmem', rfl⟩ := List.mem_map.mp hreport'
          exact zero_cons_lt_next (hne report' hmem')
      · intro place value
        match place with
        | [] =>
            have hroot := hmemRest [] value
            simpa [Below, AtOrBelow, next_eq_nil_iff] using hroot
        | 0 :: place => simp [Below, AtOrBelow, ← hmemFirst, next_ne_zero_cons]
        | (i + 1) :: place =>
            have hshifted := hmemRest (i :: place) value
            simpa [Below, AtOrBelow, next_eq_succ_cons_iff] using hshifted
      · simp [← hvaluesFirst, ← hvaluesRest, Function.comp_def]

/-- What stands at a place above which there is nothing. -/
def Outermost (due : Place → β → Prop) (place : Place) (value : β) : Prop :=
  due place value ∧ ∀ above, above <+: place → above ≠ place →
    ∀ other, ¬ due above other

section Outermost

variable {root : β → Prop} {due : α → Place → β → Prop} {children : List α}
    {place : Place}
  {value : β}

/-- Where the root has a value, nothing below it is outermost. -/
theorem outermost_of_root {top : β} (htop : root top)
    (hunique : ∀ other, root other → other = top) :
    Outermost (AtOrBelow root due children) place value ↔
      place = [] ∧ value = top := by
  constructor
  · rintro ⟨hdue, habove⟩
    by_cases hplace : place = []
    · subst hplace
      exact ⟨rfl, hunique value hdue⟩
    · exact absurd htop (habove [] List.nil_prefix (Ne.symm hplace) top)
  · rintro ⟨rfl, rfl⟩
    refine ⟨htop, fun above hpath hne => ?_⟩
    exact absurd (List.prefix_nil.mp hpath) hne

/-- Where the root has no value, what is outermost is so below a child. -/
theorem outermost_of_no_root (hroot : ∀ other, ¬ root other) :
    Outermost (AtOrBelow root due children) place value
      ↔ Below (fun child => Outermost (due child)) children place value := by
  cases place with
  | nil => simp [Outermost, Below, AtOrBelow, hroot]
  | cons i place =>
      constructor
      · rintro ⟨⟨child, hchild, hdue⟩, habove⟩
        refine ⟨child, hchild, hdue, fun above hpath hne other hother => ?_⟩
        exact habove (i :: above) (List.cons_prefix_cons.mpr ⟨rfl, hpath⟩)
          (fun heq => hne (List.cons.inj heq).2) other ⟨child, hchild, hother⟩
      · rintro ⟨child, hchild, hdue, habove⟩
        refine ⟨⟨child, hchild, hdue⟩, fun above hpath hne other hother => ?_⟩
        cases above with
        | nil => exact hroot other hother
        | cons j above =>
            obtain ⟨rfl, hbelow⟩ := List.cons_prefix_cons.mp hpath
            obtain ⟨child', hchild', hother⟩ := hother
            obtain rfl := Option.some.inj (hchild'.symm.trans hchild)
            exact habove above hbelow (fun heq => hne (by rw [heq]))
              other hother

theorem outermost_below (due : α → Place → β → Prop) (children : List α) :
    Outermost (Below due children) = Below (fun child => Outermost (due child))
      children := by
  funext place value
  exact propext (outermost_of_no_root fun _ => not_false)

end Outermost

end Place

open Place

namespace Term

def parts : Term → List Term
  | .call _ args => args
  | _ => []

/-- Induction over terms from the terms below. -/
theorem induction_parts {P : Term → Prop}
    (h : ∀ t : Term, (∀ part ∈ t.parts, P part) → P t) (t : Term) : P t := by
  induction t with
  | ident name => exact h _ fun part hpart => nomatch hpart
  | keyValue key value => exact h _ fun part hpart => nomatch hpart
  | call name args ih => exact h _ ih
  | hole => exact h _ fun part hpart => nomatch hpart

def sub? (t : Term) : Place → Option Term
  | [] => some t
  | i :: place => t.parts[i]?.bind fun part => part.sub? place

end Term

namespace Vocabulary

@[simp] theorem all_ne_not : all ≠ not := by decide

@[simp] theorem any_ne_not : any ≠ not := by decide

@[simp] theorem any_ne_all : any ≠ all := by decide

end Vocabulary

namespace Lint

/-- What is wrong with a condition itself, whatever stands below it. -/
inductive TermFault : Term → Finding → Prop
  | predicate {name : Bytes} (h : name ≠ Vocabulary.test) :
      TermFault (.ident name) (.unknownPredicate name)
  | key {key value : Bytes} (h : key ≠ Vocabulary.feature) :
      TermFault (.keyValue key value) (.unknownKey key)
  | function {name : Bytes} {args : List Term}
      (h : name ∉ [Vocabulary.not, Vocabulary.all, Vocabulary.any]) :
      TermFault (.call name args) (.unknownFunction name)
  | arity {args : List Term} (h : args.length ≠ 1) :
      TermFault (.call Vocabulary.not args) (.notArity args.length)
  | choice : TermFault (.call Vocabulary.any []) .emptyAny

/-- What is wrong with an attribute itself. -/
inductive AttributeFault (attr : Attribute) : Finding → Prop
  | empty (hcfg : attr.isCfg = true) (hargs : attr.args = .paren []) :
      AttributeFault attr .emptyCfg
  | shape (hcfg : attr.isCfg = true)
      (hargs : ∀ terms, attr.args ≠ .paren terms) :
      AttributeFault attr (.malformedCfg attr)

def TermFaultAt (t : Term) (place : Place) (finding : Finding) : Prop :=
  ∃ u, t.sub? place = some u ∧ TermFault u finding

def AttributeFaultAt (attr : Attribute) : Place → Finding → Prop :=
  AtOrBelow (AttributeFault attr) TermFaultAt attr.conditions

/-- The faults of an item list: a place names an item, one of its attributes,
and from there a condition. -/
def FaultAt (items : List Item) : Place → Finding → Prop :=
  Below (fun item => Below AttributeFaultAt item.attrs) items

theorem AttributeFault.isCfg {attr : Attribute} {finding : Finding}
    (h : AttributeFault attr finding) : attr.isCfg = true := by
  cases h with
  | empty hcfg _ => exact hcfg
  | shape hcfg _ => exact hcfg

theorem AttributeFaultAt.isCfg {attr : Attribute} {place : Place}
    {finding : Finding} (h : AttributeFaultAt attr place finding) :
    attr.isCfg = true := by
  cases place with
  | nil => exact AttributeFault.isCfg h
  | cons i place =>
      obtain ⟨t, ht, -⟩ := h
      by_contra hcfg
      simp [Attribute.conditions, hcfg] at ht

theorem termFaultAt_iff {t : Term} {place : Place} {finding : Finding} :
    TermFaultAt t place finding ↔
      AtOrBelow (TermFault t) TermFaultAt t.parts place finding := by
  cases place with
  | nil => simp [TermFaultAt, AtOrBelow, Term.sub?]
  | cons i place =>
      simp only [TermFaultAt, AtOrBelow, Term.sub?, Option.bind_eq_some_iff]
      grind

theorem termsFindings_eq_flatMap (ts : List Term) :
    termsFindings ts = ts.flatMap termFindings := by
  induction ts with
  | nil => rfl
  | cons t ts ih => rw [termsFindings, ih, List.flatMap_cons]

/-- A term at fault is reported for that, and nothing below it is. -/
theorem TermFault.termFindings_eq {t : Term} {finding : Finding}
    (h : TermFault t finding) :
    termFindings t = [finding] := by
  cases h with
  | predicate h => simp [termFindings, h]
  | key h => simp [termFindings, h]
  | function h =>
      simp only [List.mem_cons, List.not_mem_nil, or_false, not_or] at h
      simp [termFindings, h]
  | arity h => simp [termFindings, h]
  | choice => decide

/-- A term has at most one fault. -/
theorem TermFault.unique {t : Term} {finding other : Finding}
    (h : TermFault t finding) (h' : TermFault t other) : other = finding :=
  List.singleton_inj.mp (h'.termFindings_eq.symm.trans h.termFindings_eq)

theorem no_fault_ident_iff {name : Bytes} :
    (∀ finding, ¬ TermFault (.ident name) finding) ↔
      name = Vocabulary.test := by
  constructor
  · intro h
    by_contra hne
    exact h _ (.predicate hne)
  · rintro rfl finding hfault
    simpa [termFindings] using hfault.termFindings_eq

theorem no_fault_keyValue_iff {key value : Bytes} :
    (∀ finding, ¬ TermFault (.keyValue key value) finding) ↔
      key = Vocabulary.feature := by
  constructor
  · intro h
    by_contra hne
    exact h _ (.key hne)
  · rintro rfl finding hfault
    simpa [termFindings] using hfault.termFindings_eq

theorem no_fault_call_iff {name : Bytes} {args : List Term} :
    (∀ finding, ¬ TermFault (.call name args) finding) ↔
      (name = Vocabulary.not ∧ args.length = 1) ∨ name = Vocabulary.all
        ∨ (name = Vocabulary.any ∧ args ≠ []) := by
  constructor
  · intro h
    have hname : name ∈ [Vocabulary.not, Vocabulary.all, Vocabulary.any] := by
      by_contra hnot
      exact h _ (.function hnot)
    simp only [List.mem_cons, List.not_mem_nil, or_false] at hname
    rcases hname with rfl | rfl | rfl
    · refine Or.inl ⟨rfl, ?_⟩
      by_contra hne
      exact h _ (.arity hne)
    · exact Or.inr (Or.inl rfl)
    · refine Or.inr (Or.inr ⟨rfl, ?_⟩)
      rintro rfl
      exact h _ .choice
  · intro h finding hfault
    generalize ht : Term.call name args = t at hfault
    cases hfault with
    | predicate _ => simp at ht
    | key _ => simp at ht
    | function hname =>
        obtain ⟨rfl, rfl⟩ := Term.call.inj ht
        rcases h with ⟨rfl, -⟩ | rfl | ⟨rfl, -⟩ <;> simp at hname
    | arity hlength =>
        obtain ⟨rfl, rfl⟩ := Term.call.inj ht
        simp [hlength, Vocabulary.all_ne_not.symm,
          Vocabulary.any_ne_not.symm] at h
    | choice =>
        obtain ⟨rfl, rfl⟩ := Term.call.inj ht
        simp at h

/-- A condition that is not at fault itself has the findings of the conditions
below it. -/
theorem termFindings_of_no_fault {t : Term}
    (h : ∀ finding, ¬ TermFault t finding) :
    termFindings t = t.parts.flatMap termFindings := by
  cases t with
  | ident name => simp [termFindings, no_fault_ident_iff.mp h, Term.parts]
  | keyValue key value =>
      simp [termFindings, no_fault_keyValue_iff.mp h, Term.parts]
  | call name args =>
      rcases no_fault_call_iff.mp h with ⟨rfl, hlength⟩ | rfl | ⟨rfl, hargs⟩
      · simp [termFindings, hlength, Term.parts, termsFindings_eq_flatMap]
      · simp [termFindings, Term.parts, termsFindings_eq_flatMap]
      · simp [termFindings, hargs, Term.parts, termsFindings_eq_flatMap]
  | hole => rfl

/-- The findings in a condition are its outermost faults. -/
theorem inOrder_termFindings (t : Term) :
    InOrder (Outermost (TermFaultAt t)) (termFindings t) := by
  induction t using Term.induction_parts with
  | h t ih =>
      have hat :
          TermFaultAt t = AtOrBelow (TermFault t) TermFaultAt t.parts := by
        funext place finding
        exact propext termFaultAt_iff
      rw [hat]
      by_cases hfault : ∃ finding, TermFault t finding
      · obtain ⟨finding, hfault⟩ := hfault
        rw [hfault.termFindings_eq]
        exact (inOrder_root finding).congr fun _ _ =>
          (outermost_of_root hfault fun _ => hfault.unique).symm
      · rw [not_exists] at hfault
        rw [termFindings_of_no_fault hfault]
        exact (inOrder_below ih).congr fun _ _ =>
          (outermost_of_no_root hfault).symm

/-- The codes of conditions that are always false. -/
def alwaysFalseCodes : List String :=
  ["unknown-predicate", "unknown-key", "unknown-function", "not-arity",
    "empty-any"]

def alwaysTrueCodes : List String := ["empty-cfg", "malformed-cfg"]

theorem TermFault.code_mem {t : Term} {finding : Finding}
    (h : TermFault t finding) : finding.code ∈ alwaysFalseCodes := by
  cases h <;> simp [Finding.code, alwaysFalseCodes]

theorem AttributeFault.code_mem {attr : Attribute} {finding : Finding}
    (h : AttributeFault attr finding) : finding.code ∈ alwaysTrueCodes := by
  cases h <;> simp [Finding.code, alwaysTrueCodes]

theorem not_mem_alwaysFalseCodes :
    ∀ code ∈ alwaysTrueCodes, code ∉ alwaysFalseCodes := by
  decide

theorem code_mem_of_mem_termFindings {t : Term} {finding : Finding}
    (h : finding ∈ termFindings t) : finding.code ∈ alwaysFalseCodes := by
  obtain ⟨place, ⟨u, -, hfault⟩, -⟩ := (inOrder_termFindings t).exists_place h
  exact hfault.code_mem

/-- The issue of a finding in an attribute. Attributes without conditions are
worth a warning at most. -/
def issueOf (file : Bytes) (severity : Severity) (attr : Attribute)
    (finding : Finding) : Issue :=
  ⟨file, attr.span,
    if finding.code ∈ alwaysFalseCodes then severity else .warning, finding⟩

section Issues

variable (file : Bytes) (severity : Severity) {attr : Attribute}

/-- An attribute at fault is reported for that alone. -/
theorem AttributeFault.attributeIssues_eq {finding : Finding}
    (h : AttributeFault attr finding) :
    attributeIssues file severity attr =
      [issueOf file severity attr finding] := by
  rw [issueOf, if_neg (not_mem_alwaysFalseCodes _ h.code_mem)]
  cases h with
  | empty hcfg hargs => simp [attributeIssues, hcfg, hargs]
  | shape hcfg hargs =>
      cases hcase : attr.args with
      | none => simp [attributeIssues, hcfg, hcase]
      | eq value => simp [attributeIssues, hcfg, hcase]
      | paren terms => exact absurd hcase (hargs terms)

theorem AttributeFault.unique {finding other : Finding}
    (h : AttributeFault attr finding) (h' : AttributeFault attr other) :
    other = finding := by
  cases h with
  | empty _ hargs =>
      cases h' with
      | empty _ _ => rfl
      | shape _ hnot => exact absurd hargs (hnot [])
  | shape _ hnot =>
      cases h' with
      | empty _ hargs => exact absurd hargs (hnot [])
      | shape _ _ => rfl

/-- An attribute without a fault of its own has the findings of its
conditions. -/
theorem attributeIssues_of_no_fault
    (h : ∀ finding, ¬ AttributeFault attr finding) :
    attributeIssues file severity attr
      = (attr.conditions.flatMap termFindings).map
        (issueOf file severity attr) := by
  by_cases hcfg : attr.isCfg = true
  · have hargs : ∃ terms, attr.args = .paren terms := by
      by_contra hnot
      exact h _ (.shape hcfg (not_exists.mp hnot))
    obtain ⟨terms, hargs⟩ := hargs
    cases terms with
    | nil => exact absurd (.empty hcfg hargs) (h _)
    | cons t ts =>
        simp only [attributeIssues, hcfg, hargs, if_true, Attribute.conditions,
          termsFindings_eq_flatMap]
        apply List.map_congr_left
        intro finding hfinding
        obtain ⟨u, -, hfinding⟩ := List.mem_flatMap.mp hfinding
        rw [issueOf, if_pos (code_mem_of_mem_termFindings hfinding)]
  · simp [attributeIssues, Attribute.conditions, hcfg]

end Issues

/-- The findings of an attribute are its outermost faults, and give its issues
in every mode. -/
theorem exists_attributeFindings (attr : Attribute) :
    ∃ findings, InOrder (Outermost (AttributeFaultAt attr)) findings
      ∧ ∀ file severity,
        attributeIssues file severity attr = findings.map
          (issueOf file severity attr) := by
  by_cases hfault : ∃ finding, AttributeFault attr finding
  · obtain ⟨finding, hfault⟩ := hfault
    refine ⟨[finding], ?_,
      fun file severity => hfault.attributeIssues_eq file severity⟩
    exact (inOrder_root finding).congr fun _ _ =>
      (outermost_of_root hfault fun _ => hfault.unique).symm
  · rw [not_exists] at hfault
    refine ⟨attr.conditions.flatMap termFindings, ?_,
      fun file severity => attributeIssues_of_no_fault file severity hfault⟩
    have hbelow :=
      inOrder_below fun t (_ : t ∈ attr.conditions) => inOrder_termFindings t
    exact hbelow.congr fun _ _ => (outermost_of_no_root hfault).symm

/-- The issues of an attribute are its outermost faults, in the order of their
places. -/
theorem inOrder_attributeIssues (file : Bytes) (severity : Severity)
    (attr : Attribute) :
    InOrder (fun place issue => attr.isCfg = true ∧ ∃ finding,
        Outermost (AttributeFaultAt attr) place finding
          ∧ issue = issueOf file severity attr finding)
      (attributeIssues file severity attr) := by
  obtain ⟨findings, hfindings, hissues⟩ := exists_attributeFindings attr
  rw [hissues]
  refine (hfindings.map (issueOf file severity attr)).congr
    fun place issue => ?_
  constructor
  · rintro ⟨finding, hfault, rfl⟩
    exact ⟨hfault.1.isCfg, finding, hfault, rfl⟩
  · exact And.right

end Lint

end FeatureGate
