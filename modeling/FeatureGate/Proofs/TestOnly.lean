import Mathlib
import FeatureGate.Proofs.AllOrNothing
import FeatureGate.Proofs.Rechecking

/-!
Items only for tests. Whether an item is one is read off its attributes, without
evaluating anything: one of them is `#[cfg(test)]` and nothing more. Evaluation
agrees: such an item survives in a test build if the other attributes let it,
and outside one it never does. So what one command lists as only for tests, the
other shows as left out.
-/

namespace FeatureGate

namespace Attribute

def IsTestGate (attr : Attribute) : Prop :=
  attr.name = Vocabulary.cfg ∧ attr.args = .paren [.ident Vocabulary.test]

instance : DecidablePred IsTestGate :=
  fun attr => inferInstanceAs (Decidable (attr.name = Vocabulary.cfg ∧ _))

/-- The classifier looks for `#[cfg(test)]` and nothing else. -/
theorem isCfgTest_iff {attr : Attribute} :
    attr.isCfgTest = true ↔ attr.IsTestGate := by
  unfold isCfgTest isCfg IsTestGate
  split
  · rename_i name hargs
    simp [hargs]
  · rename_i hargs
    constructor
    · simp
    · rintro ⟨-, htest⟩
      exact absurd htest (hargs _)

theorem IsTestGate.isCfg {attr : Attribute} (h : attr.IsTestGate) :
    attr.isCfg = true := by
  simpa [Attribute.isCfg] using h.1

/-- The attribute holds exactly in a test build. -/
theorem IsTestGate.eval_eq {attr : Attribute} (h : attr.IsTestGate)
    (o : CompileOptions) :
    attr.eval o = o.test := by
  simp [eval, h.2, Term.evalAll, Term.eval]

end Attribute

def withoutTestGates (attrs : List Attribute) : List Attribute :=
  attrs.filter fun attr => !decide attr.IsTestGate

theorem isCfgTest_iff {attrs : List Attribute} :
    isCfgTest attrs = true ↔ ∃ attr ∈ attrs, attr.IsTestGate := by
  simp [isCfgTest, Attribute.isCfgTest_iff]

theorem not_isTestGate_of_isCfgTest {attrs : List Attribute}
    (h : isCfgTest attrs = false) :
    ∀ attr ∈ attrs, ¬ attr.IsTestGate := by
  intro attr hattr hgate
  rw [isCfgTest_iff.mpr ⟨attr, hattr, hgate⟩] at h
  cases h

theorem withoutTestGates_eq_self {attrs : List Attribute}
    (h : ∀ attr ∈ attrs, ¬ attr.IsTestGate) :
    withoutTestGates attrs = attrs := by
  apply List.filter_eq_self.mpr
  intro attr hattr
  simp [h attr hattr]

theorem shouldInclude_cons (attr : Attribute) (attrs : List Attribute)
    (o : CompileOptions) :
    shouldInclude (attr :: attrs) o
      = ((!attr.isCfg || attr.eval o) && shouldInclude attrs o) :=
  rfl

/-- The gates can be taken out if a test build is asked for in their place. -/
theorem shouldInclude_iff_withoutTestGates (attrs : List Attribute)
    (o : CompileOptions) :
    shouldInclude attrs o = true ↔ (isCfgTest attrs = true → o.test = true)
      ∧ shouldInclude (withoutTestGates attrs) o = true := by
  rw [isCfgTest_iff]
  -- A gate leaves the list of the others as it is, and turns into the demand
  -- for a test build.
  induction attrs with
  | nil => simp [shouldInclude, withoutTestGates]
  | cons attr attrs ih =>
      rw [shouldInclude_cons, Bool.and_eq_true, ih]
      by_cases hgate : attr.IsTestGate
      · have hout :
            withoutTestGates (attr :: attrs) = withoutTestGates attrs := by
          simp [withoutTestGates, hgate]
        rw [hout, hgate.isCfg, hgate.eval_eq o]
        constructor
        · rintro ⟨htest, -, hrest⟩
          exact ⟨fun _ => by simpa using htest, hrest⟩
        · rintro ⟨htest, hrest⟩
          have hmode := htest ⟨attr, List.mem_cons_self, hgate⟩
          exact ⟨by simpa using hmode, fun _ => hmode, hrest⟩
      · have hout : withoutTestGates (attr :: attrs) =
            attr :: withoutTestGates attrs := by
          simp [withoutTestGates, hgate]
        rw [hout, shouldInclude_cons, Bool.and_eq_true,
          List.exists_mem_cons_iff, or_iff_right hgate]
        exact and_left_comm

/-- Outside of test builds an item only for tests is left out. -/
theorem shouldInclude_of_not_test {attrs : List Attribute}
    (h : isCfgTest attrs = true) {o : CompileOptions} (ho : o.test = false) :
    shouldInclude attrs o = false := by
  by_contra hincluded
  rw [Bool.not_eq_false, shouldInclude_iff_withoutTestGates] at hincluded
  rw [hincluded.1 h] at ho
  cases ho

namespace Plan

def line (heading : String) (item : Item) : Bytes :=
  utf8 heading ++ item.kind ++ utf8 " " ++ item.name ++ utf8 "\n"

theorem decisionLine_of_excluded {o : CompileOptions} {item : Item}
    (h : shouldInclude item.attrs o = false) :
    decisionLine (Decision.make o item) = line "exclude  " item := by
  have hstatus : Bytes.padRight 8 (utf8 "exclude") ++ utf8 " " =
      utf8 "exclude  " := by decide
  simp only [decisionLine, Decision.make, h, Bool.false_eq_true, if_false,
    itemText, line]
  rw [hstatus]
  simp only [List.append_assoc]

/-- The lines of a plan stand in the order of the items. -/
theorem text_append (before : List Item) (item : Item) (after : List Item)
    (o : CompileOptions) :
    (make (before ++ item :: after) o).text
      = (make before o).text ++ decisionLine (Decision.make o item) ++
        (make after o).text := by
  simp [make, text]

/-- Tests come first, then the items only for tests. -/
theorem testsText_eq (items : List Item) (o : CompileOptions) :
    (make items o).testsText
      = (items.filter fun item => isTest item.attrs).flatMap (line "test      ")
        ++ (items.filter fun item => isCfgTest item.attrs).flatMap
          (line "cfg(test) ") := by
  have hline : ∀ heading : String, line heading
      = fun item => utf8 heading ++ itemText item ++ utf8 "\n" := by
    intro heading
    funext item
    simp [line, itemText]
  rw [testsText, (sorts_make items o).tests_eq,
    (sorts_make items o).testOnly_eq, hline, hline]

end Plan

/-- The arguments call a command on a file under these settings, and do not ask
for help. -/
structure Calls (args : List Bytes) (command : Command) (s : Settings)
    (path : Bytes) : Prop where
  parsed : ∃ rest, Call.ofArgs args = .known command rest
    ∧ Flag.parse command.flags rest {} = .ok (s, [path])
  help : s.help = false

theorem Calls.report_eq {args : List Bytes} {command : Command} {s : Settings}
    {path : Bytes} (h : Calls args command s path)
    (hformal : command.isInformal = false) (d : Decoders) (view : FileView) :
    (Run.ofArgs d view args).report = (command.run d view s path).1 := by
  obtain ⟨rest, hcall, hargs⟩ := h.parsed
  rw [Run.ofArgs_of_known hcall hargs h.help hformal]

theorem Command.run_tests_of_ok {d : Decoders} {view : FileView} {s : Settings}
    {path : Bytes} {items : List Item}
    (hitems : loadItems view path = .ok items) :
    run d view s path .tests = (testsReport items, none) := by
  simp only [run, withItems, hitems]

/-- What is said to be only for tests is so under evaluation. An item that
carries `#[cfg(test)]` survives if it is a test build and its other attributes
hold, and not otherwise; in an item that does not carry it there is nothing to
take out. So the items that one command lists as only for tests are all shown as
left out by the other, each in its place, unless the options that it finds ask
for a test build. -/
theorem testOnly_follows_evaluation :
    (∀ (attrs : List Attribute) (o : CompileOptions), isCfgTest attrs = true →
      (shouldInclude attrs o = true ↔
        o.test = true ∧ shouldInclude (withoutTestGates attrs) o = true)) ∧
    (∀ attrs : List Attribute, isCfgTest attrs = false →
      (∀ attr ∈ attrs, ¬ attr.IsTestGate) ∧ withoutTestGates attrs = attrs) ∧
    ∀ (d : Decoders) (view : FileView) (path : Bytes) (items : List Item)
      (testsArgs checkArgs : List Bytes)
      (t s : Settings) (o : CompileOptions), loadItems view path = .ok items →
      Calls testsArgs .tests t path → Calls checkArgs .check s path →
        s.options d view = .ok o →
      let tests := (Run.ofArgs d view testsArgs).report
      let check := (Run.ofArgs d view checkArgs).report
      let listed := items.filter fun item => isCfgTest item.attrs
      tests.error = none ∧ check.error = none
      ∧ tests.output = (items.filter fun item => isTest item.attrs).flatMap
        (Plan.line "test      ")
        ++ listed.flatMap (Plan.line "cfg(test) ")
      ∧ (o.test = false → ∀ before item after,
        items = before ++ item :: after → item ∈ listed →
        check.output = (Plan.make before o).text ++ Plan.line "exclude  " item
          ++ (Plan.make after o).text) := by
  refine ⟨?_, ?_, ?_⟩
  · intro attrs o h
    rw [shouldInclude_iff_withoutTestGates]
    simp only [h, true_implies]
  · intro attrs h
    have hnone := not_isTestGate_of_isCfgTest h
    exact ⟨hnone, withoutTestGates_eq_self hnone⟩
  · intro d view path items testsArgs checkArgs t s o hitems htests hcheck ho
    simp only [htests.report_eq rfl, hcheck.report_eq rfl,
      Command.run_tests_of_ok hitems, Command.run_check_of_ok ho hitems]
    refine ⟨rfl, rfl, Plan.testsText_eq items _, ?_⟩
    rintro hmode before item after rfl hlisted
    have hgated := (List.mem_filter.mp hlisted).2
    have hexcluded := shouldInclude_of_not_test hgated hmode
    exact (Plan.text_append before item after o).trans
      (by rw [Plan.decisionLine_of_excluded hexcluded])

namespace Gated

def testItem : Item where
  kind := utf8 "fn"
  name := utf8 "a"
  attrs := [⟨utf8 "test", .none, ⟨0, 7, 1, 1⟩⟩,
    ⟨utf8 "cfg", .paren [.ident (utf8 "test")], ⟨8, 20, 1, 9⟩⟩]
  span := ⟨0, 26, 1, 1⟩

/-- The gate is the last of three attributes, of which the first has no list. -/
def moduleItem : Item where
  kind := utf8 "mod"
  name := utf8 "b"
  attrs := [⟨utf8 "cfg", .none, ⟨27, 33, 1, 28⟩⟩,
    ⟨utf8 "cfg", .paren [.keyValue (utf8 "feature") (utf8 "x")],
      ⟨34, 55, 1, 35⟩⟩,
    ⟨utf8 "cfg", .paren [.ident (utf8 "test")], ⟨56, 68, 1, 57⟩⟩]
  span := ⟨27, 74, 1, 28⟩

/-- An item that the test mode bears on without any gate. -/
def openItem : Item where
  kind := utf8 "fn"
  name := utf8 "c"
  attrs := [⟨utf8 "cfg", .paren [.call (utf8 "any")
    [.ident (utf8 "test"), .keyValue (utf8 "feature") (utf8 "x")]],
      ⟨75, 107, 2, 1⟩⟩]
  span := ⟨75, 112, 2, 1⟩

/-- An item file, and a config that asks for a test build. -/
def tree : FileTree where
  workPlace := [utf8 "w"]
  files :=
    [([utf8 "w", utf8 "a.dream"],
      utf8 "#[test] #[cfg(test)] fn a; #[cfg] #[cfg(feature = \"x\")] #[cfg(test)] mod b\n"
        ++ utf8 "#[cfg(any(test, feature = \"x\"))] fn c"),
      ([utf8 "w", utf8 "c.json"],
        utf8 "\x7b\"test\":true,\"features\":[\"x\"]\x7d")]

def testsArgs : List Bytes := [utf8 "tests", utf8 "a.dream"]

/-- The flags turn the test mode off again. -/
def checkArgs : List Bytes :=
  [utf8 "-v", utf8 "check", utf8 "a.dream", utf8 "-c", utf8 "c.json",
    utf8 "--test=false"]

def settings : Settings where
  config := utf8 "c.json"
  test := some false
  verbose := true

end Gated

open Gated

/-- The module is left out although its feature is on, and the function behind
it is not. -/
theorem testOnly_follows_evaluation_flag_off :
    loadItems tree.view (utf8 "a.dream") = .ok [testItem, moduleItem, openItem]
    ∧ settings.options .builtin tree.view = .ok (.withFeatures [utf8 "x"])
    ∧ (shouldInclude moduleItem.attrs (.forTesting [utf8 "x"]) = true ↔
      shouldInclude (withoutTestGates moduleItem.attrs)
        (.forTesting [utf8 "x"]) = true)
    ∧ withoutTestGates openItem.attrs = openItem.attrs
    ∧ (Run.ofArgs .builtin tree.view testsArgs).report.output
      = utf8 "test      fn a\ncfg(test) fn a\ncfg(test) mod b\n"
    ∧ (Run.ofArgs .builtin tree.view checkArgs).report.output
      = utf8 "exclude  fn a\n" ++ utf8 "exclude  mod b\n" ++
        utf8 "include  fn c\n" := by
  have hitems : loadItems tree.view (utf8 "a.dream") =
      .ok [testItem, moduleItem, openItem] := by
    decide +kernel
  have hoptions : settings.options .builtin tree.view =
      .ok (.withFeatures [utf8 "x"]) := by cbv
  have htests : Calls testsArgs .tests {} (utf8 "a.dream") :=
    ⟨⟨_, rfl, rfl⟩, rfl⟩
  have hcheck : Calls checkArgs .check settings (utf8 "a.dream") :=
    ⟨⟨_, rfl, rfl⟩, rfl⟩
  obtain ⟨hgated, hopen, hcommands⟩ := testOnly_follows_evaluation
  obtain ⟨-, -, hlisted, hexcluded⟩ :=
    hcommands .builtin tree.view _ _ testsArgs checkArgs {} settings _
      hitems htests hcheck hoptions
  refine ⟨hitems, hoptions, ?_, (hopen openItem.attrs (by decide)).2, ?_, ?_⟩
  · rw [hgated moduleItem.attrs _ (by decide)]
    exact and_iff_right rfl
  · exact hlisted.trans (by decide +kernel)
  · exact (hexcluded rfl [testItem] moduleItem [openItem] rfl (by decide)).trans
      (by decide +kernel)

end FeatureGate
