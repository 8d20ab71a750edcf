import Mathlib
import FeatureGate.CommandLine.Run
import FeatureGate.Proofs.Paths
import FeatureGate.Proofs.Watching

/-!
Watching prints what checking prints. Options come about in two ways: at the
start the flags are put over the config before the first snapshot is stored;
after a reload the store holds what the file says, and the flags are put over it
once more. Either way a block shows the check of the files that were read for
it.
-/

namespace FeatureGate

theorem Manifest.features_of_read_eq {d : Decoders} {view : FileView}
    {path path' query : Bytes} {names : List Bytes}
    (hread : view.read path = view.read path')
    (h : features d view path query = .ok names) :
    features d view path' query = .ok names := by
  rw [features, hread] at h
  rw [features]
  cases hfile : view.read path' with
  | error fault => simp [hfile] at h
  | ok text =>
      rw [hfile] at h
      cases hfound : featuresIn d text query with
      | error fault => simp [hfound, Except.mapError] at h
      | ok found => simpa [hfound, Except.mapError] using h

namespace Config

/-- A config file is the same under both forms of its path. -/
theorem load_of_sameForms {d : Decoders} {view : FileView} {path : Bytes}
    (h : view.SameForms path) :
    load d view (Path.absolute view.workFolder path) = load d view path := by
  have hextension : Path.extension (Path.absolute view.workFolder path) =
      Path.extension path := by
    simp only [Path.extension, h.lastPart]
  have hformat : ConfigFormat.ofPath (Path.absolute view.workFolder path)
      = ConfigFormat.ofPath path := by
    rw [ConfigFormat.ofPath, ConfigFormat.ofPath, hextension]
  rw [load, load, h.file, hformat]

theorem manifestFeatures_of_sameForms {d : Decoders} {view : FileView}
    {path : Bytes} (h : view.SameForms path)
    {config : Config} {names : List Bytes}
    (hnames : config.manifestFeatures d view
      (Path.folder (Path.absolute view.workFolder path))
      = .ok names) :
    config.manifestFeatures d view (Path.folder path) = .ok names := by
  unfold manifestFeatures manifestPath? at hnames ⊢
  by_cases hempty : config.manifest.path.isEmpty = true
  · simpa [hempty] using hnames
  · by_cases habsolute : Path.isAbsolute config.manifest.path = true
    · simpa [hempty, habsolute] using hnames
    · simp only [hempty, habsolute, if_neg, Bool.false_eq_true,
        not_false_eq_true] at hnames ⊢
      exact Manifest.features_of_read_eq (h.folder _) hnames

/-- The manifest is found from either folder; only the wording of an error would
differ. -/
theorem options_of_sameForms {d : Decoders} {view : FileView} {path : Bytes}
    (h : view.SameForms path) {config : Config} {o : CompileOptions}
    (ho : config.options d view
      (Path.folder (Path.absolute view.workFolder path)) = .ok o) :
    config.options d view (Path.folder path) = .ok o := by
  rw [options] at ho ⊢
  cases hnames : config.manifestFeatures d view
      (Path.folder (Path.absolute view.workFolder path)) with
  | error error => simp [hnames, Except.map] at ho
  | ok names =>
      rw [manifestFeatures_of_sameForms h hnames, ← hnames]
      exact ho

end Config

/-- What an event brings to the watched file is what the flags find in the file
as they name it. -/
theorem Settings.options_of_taken {d : Decoders} {s : Settings}
    (hconfig : s.config ≠ []) {m : Moment} (hforms : m.view.SameForms s.config)
    {o : CompileOptions}
    (h : m.options? d (Path.absolute m.view.workFolder s.config) = some o) :
    s.options d m.view = .ok (s.applyTo o) := by
  obtain ⟨-, -, config, hload, ho⟩ := Moment.options?_eq_some_iff.mp h
  rw [Config.load_of_sameForms hforms] at hload
  have hoptions := Config.options_of_sameForms hforms ho
  have hfile : Config.loadOptions d m.view s.config = .ok o := by
    rw [Config.loadOptions, hload]
    simp only [hoptions]
    rfl
  rw [options, configOptions, if_neg (by simpa using hconfig), hfile]
  rfl

/-- A command named first is called with all that follows. -/
theorem Call.ofArgs_name {command : Command}
    (h : command = .check ∨ command = .watch) (args : List Bytes) :
    ofArgs (command.name :: args) = .known command args := by
  have hword : Command.isEnd command.name = false
∧ Command.takesNext command.name = false
      ∧ (command.name.isEmpty || (utf8 "-").isPrefixOf command.name) = false
      ∧ Command.ofName? command.name = some command := by
    rcases h with rfl | rfl <;> decide
  obtain ⟨hend, hnext, hplain, hname⟩ := hword
  have hwords : Command.words (command.name :: args) =
      command.name :: Command.words args := by
    rw [Command.words.eq_def]
    simp only [hend, hnext, hplain, Bool.false_eq_true, if_false]
  have hwithout :
      Command.without command.name (command.name :: args) = args := by
    rw [Command.without.eq_def]
    simp only [hend, hnext, Bool.false_eq_true, if_false, if_true]
  rw [ofArgs, hwords]
  simp only [hname, hwithout]

/-- A call with a known command and one file comes down to running it. -/
theorem Run.ofArgs_of_known {command : Command} {args rest : List Bytes}
    {s : Settings} {path : Bytes}
    (hcall : Call.ofArgs args = .known command rest)
    (hargs : Flag.parse command.flags rest {} = .ok (s, [path]))
    (hhelp : s.help = false) (hformal : command.isInformal = false)
    (d : Decoders) (view : FileView) :
    ofArgs d view args =
      { verbose := s.verbose, report := (command.run d view s path).1,
        session := (command.run d view s path).2 } := by
  rw [ofArgs, hcall]
  simp only [Run.command, hargs, hhelp, hformal]
  rfl

theorem Run.ofArgs_name {command : Command}
    (hcommand : command = .check ∨ command = .watch) {args : List Bytes}
    {s : Settings} {path : Bytes}
    (hargs : Flag.parse command.flags args {} = .ok (s, [path]))
    (hhelp : s.help = false) (d : Decoders) (view : FileView) :
    ofArgs d view (command.name :: args) =
      { verbose := s.verbose, report := (command.run d view s path).1,
        session := (command.run d view s path).2 } := by
  have hformal : command.isInformal = false := by
    rcases hcommand with rfl | rfl <;> rfl
  exact ofArgs_of_known (Call.ofArgs_name hcommand args) hargs hhelp
    hformal d view

namespace Command

variable {d : Decoders} {view : FileView} {s : Settings} {path : Bytes}

theorem run_check_of_ok {o : CompileOptions} {items : List Item}
    (ho : s.options d view = .ok o) (hitems : loadItems view path = .ok items) :
    run d view s path .check = (checkReport items o, none) := by
  simp only [run, withOptions, withItems, ho, hitems]

theorem run_watch_of_ok (hconfig : s.config ≠ []) {o : CompileOptions}
    {items : List Item} (ho : s.options d view = .ok o)
    (hitems : loadItems view path = .ok items) :
    run d view s path .watch = WatchSession.start s view items o := by
  have hgiven : ¬ s.config.isEmpty = true := by simpa using hconfig
  simp only [run, if_neg hgiven, withOptions, withItems, ho, hitems]

/-- Either there are options and items, or both commands fail with the same
words. -/
theorem run_check_cases (d : Decoders) (view : FileView)
    (hconfig : s.config ≠ []) (path : Bytes) :
    (∃ o items, s.options d view = .ok o ∧ loadItems view path = .ok items)
      ∨ ∃ message, run d view s path .check = (.failure message, none)
        ∧ run d view s path .watch = (.failure message, none) := by
  have hgiven : ¬ s.config.isEmpty = true := by simpa using hconfig
  cases ho : s.options d view with
  | error fault =>
      right
      simp only [run, if_neg hgiven, withOptions, ho]
      exact ⟨_, rfl, rfl⟩
  | ok o =>
      cases hitems : loadItems view path with
      | error fault =>
          right
          simp only [run, if_neg hgiven, withOptions, withItems, ho, hitems]
          exact ⟨_, rfl, rfl⟩
      | ok items => exact Or.inl ⟨o, items, rfl, rfl⟩

end Command

namespace WatchSession

def heading (version : UInt64) : Bytes :=
  utf8 "# options v" ++ decimal version.toNat ++ utf8 "\n"

/-- Texts under headings of consecutive versions. -/
def blocks (version : UInt64) : List Bytes → Bytes
  | [] => []
  | body :: bodies => heading version ++ body ++ blocks (version + 1) bodies

/-- What is printed while events are handled one after the other. -/
def printed (s : WatchSession) (d : Decoders) : List Moment → Bytes
  | [] => []
  | m :: later =>
      ((s.react d m.view m.event).2.map Report.output).getD []
        ++ (s.react d m.view m.event).1.printed d later

/-- The files as they were at every successful reload. -/
def reloads (d : Decoders) (path : Bytes) (moments : List Moment) :
    List FileView :=
  (moments.filter fun m => (m.options? d path).isSome).map Moment.view

/-- An event that is taken prints one block. -/
theorem react_of_some {d : Decoders} {s : WatchSession} {m : Moment}
    {o : CompileOptions} (h : m.options? d s.watcher.path = some o) :
    (s.react d m.view m.event).1
        = { s with
          watcher := { s.watcher with store := s.watcher.store.swap o } }
      ∧ ((s.react d m.view m.event).2.map Report.output).getD []
        = heading (s.watcher.store.load.version + 1)
          ++ (Plan.make s.items (s.settings.applyTo o)).text := by
  have hreact := Watcher.react_of_some h
  constructor
  · simp only [react, hreact]
  · simp only [react, hreact]
    rfl

/-- Any other event changes nothing and prints nothing. -/
theorem react_of_none {d : Decoders} {s : WatchSession} {m : Moment}
    (h : m.options? d s.watcher.path = none) :
    (s.react d m.view m.event).1 = s
      ∧ ((s.react d m.view m.event).2.map Report.output).getD [] = [] := by
  obtain ⟨hsame, hcall⟩ := Watcher.react_of_none h
  constructor
  · simp only [react, hsame]
  · simp only [react]
    cases hreaction : (s.watcher.react d m.view m.event).2 with
    | ignored => rfl
    | failed fault => rfl
    | reloaded snapshot => simp [hreaction, Reaction.call?] at hcall

/-- Where every event taken leads to the plan that a check of its files shows,
the blocks are the checks at the reloads, under the versions that follow the
current one. -/
theorem printed_eq_blocks {d : Decoders} {s : WatchSession}
    (check : FileView → Bytes) {moments : List Moment}
    (h : ∀ m ∈ moments, ∀ o, m.options? d s.watcher.path = some o →
      check m.view = (Plan.make s.items (s.settings.applyTo o)).text) :
    s.printed d moments
      = blocks (s.watcher.store.load.version + 1)
        ((reloads d s.watcher.path moments).map check) := by
  induction moments generalizing s with
  | nil => rfl
  | cons m moments ih =>
      rw [List.forall_mem_cons] at h
      cases ho : m.options? d s.watcher.path with
      | none =>
          obtain ⟨hsame, houtput⟩ := react_of_none ho
          have hreloads : reloads d s.watcher.path (m :: moments)
              = reloads d s.watcher.path moments := by simp [reloads, ho]
          rw [printed, houtput, hsame, hreloads]
          exact ih h.2
      | some o =>
          obtain ⟨hnext, houtput⟩ := react_of_some ho
          have hreloads : reloads d s.watcher.path (m :: moments)
              = m.view :: reloads d s.watcher.path moments := by
                simp [reloads, ho]
          rw [printed, houtput, hnext, hreloads, List.map_cons,
            blocks, h.1 o ho]
          congr 1
          exact ih h.2

theorem mem_reloads {d : Decoders} {path : Bytes} {moments : List Moment}
    {view : FileView} (h : view ∈ reloads d path moments) :
    ∃ m ∈ moments, ∃ o, m.options? d path = some o ∧ m.view = view := by
  obtain ⟨m, hm, rfl⟩ := List.mem_map.mp h
  rw [List.mem_filter, Option.isSome_iff_exists] at hm
  obtain ⟨hmem, o, ho⟩ := hm
  exact ⟨m, hmem, o, ho, rfl⟩

/-- The start prints the first block, and a session goes on from there unless
the folder cannot be watched. -/
theorem start_eq (s : Settings) (view : FileView) (items : List Item)
    (o : CompileOptions) :
    (start s view items o).1.output = heading 1 ++ (Plan.make items o).text
      ∧ ((start s view items o).1.error = none ↔
        (start s view items o).2 ≠ none)
      ∧ ∀ session, (start s view items o).2 = some session →
        session = ⟨s, items, Watcher.new view s.config (.new o)⟩ := by
  simp only [start]
  split
  · exact ⟨List.append_nil _,
      by simp [Report.append, Report.failure, block], by simp⟩
  · refine ⟨List.append_nil _, by simp [Report.append, block], ?_⟩
    intro session h
    simpa using h.symm

end WatchSession

open WatchSession

/-- Watching agrees with checking under the same arguments. Where the check of
the first files fails, so does the watch, with the same words. Otherwise the
watch prints one block for the start and one for each successful reload, under
consecutive versions, and each block shows what the check prints of the files as
they were then. The item file stays what it was, and the path of the config file
means the same in its absolute form. -/
theorem watch_agrees_with_check (d : Decoders) {args : List Bytes}
    {s : Settings} {path : Bytes}
    (hargs : Flag.parse Command.watch.flags args {} = .ok (s, [path]))
    (hhelp : s.help = false) (hconfig : s.config ≠ []) (start : FileView)
    (moments : List Moment) (hforms : ∀ m ∈ moments, m.view.SameForms s.config)
    (hfolder : ∀ m ∈ moments, m.view.workFolder = start.workFolder)
    (hitems : ∀ m ∈ moments, m.view.read path = start.read path) :
    let check := fun view =>
      (Run.ofArgs d view (Command.check.name :: args)).report
    let watch := Run.ofArgs d start (Command.watch.name :: args)
    let reloads := reloads d (Path.absolute start.workFolder s.config) moments
    ((check start).error ≠ none →
      watch.report = check start ∧ watch.session = none) ∧
    ((check start).error = none →
      watch.report.output = blocks 1 [(check start).output]
      ∧ (watch.report.error = none ↔ watch.session ≠ none)
      ∧ ∀ session, watch.session = some session →
        (∀ view ∈ reloads, (check view).error = none)
        ∧ watch.report.output ++ session.printed d moments
          = blocks 1 ((start :: reloads).map fun view =>
            (check view).output)) := by
  have hcheck : ∀ view, (Run.ofArgs d view (Command.check.name :: args)).report
      = (Command.check.run d view s path).1 :=
    fun view => by rw [Run.ofArgs_name (Or.inl rfl) hargs hhelp]
  have hwatch := Run.ofArgs_name (Or.inr rfl) hargs hhelp d start
  simp only [hcheck, hwatch]
  rcases Command.run_check_cases d start hconfig path with
    ⟨o, items, ho, hload⟩ | ⟨message, hfails, hfails'⟩
  · have hstart := Command.run_check_of_ok ho hload
    obtain ⟨houtput, herror, hsession⟩ := start_eq s start items o
    -- A reload finds the items of the start and, under the flags, what the
    -- check finds.
    have hreload : ∀ m ∈ moments, ∀ o',
        m.options? d (Path.absolute start.workFolder s.config) = some o' →
          Command.check.run d m.view s path =
            (Command.checkReport items (s.applyTo o'), none) := by
      intro m hm o' ho'
      rw [← hfolder m hm] at ho'
      have hsame : loadItems m.view path = .ok items := by
        rw [← hload, loadItems, loadItems, hitems m hm]
      exact Command.run_check_of_ok (Settings.options_of_taken hconfig
        (hforms m hm) ho') hsame
    rw [hstart, Command.run_watch_of_ok hconfig ho hload]
    refine ⟨fun h => absurd rfl h,
      fun _ => ⟨?_, herror, fun session h => ⟨?_, ?_⟩⟩⟩
    · rw [houtput, blocks, blocks, List.append_nil]
      rfl
    · intro view hview
      obtain ⟨m, hm, o', ho', rfl⟩ := mem_reloads hview
      rw [hreload m hm o' ho']
      rfl
    · rw [hsession session h, houtput, List.map_cons, blocks, hstart,
        printed_eq_blocks fun view =>
          (Command.check.run d view s path).1.output]
      · rfl
      · intro m hm o' ho'
        rw [hreload m hm o' ho']
        rfl
  · rw [hfails, hfails']
    exact ⟨fun _ => ⟨rfl, rfl⟩, fun h => by simp [Report.failure] at h⟩

namespace Sample

def args : List Bytes :=
  [utf8 "a.dream", utf8 "-c", utf8 "c.json", utf8 "--test", utf8 "-f", utf8 "x"]

theorem sameForms_tree (config : Option Bytes) :
    (tree config).view.SameForms (utf8 "c.json") := by
  have hname : Path.LeadsDown (utf8 "c.json") ∧ Path.slash ∉ utf8 "c.json" := by
    unfold Path.LeadsDown
    decide
  have hnone : ∀ part ∈ ([] : List Bytes), Path.LeadsDown part ∧
      Path.slash ∉ part := by simp
  have hsound : (tree config).IsSound := by
    change ∀ part ∈ [utf8 "w"], Path.isName part = true
    decide
  exact FileTree.sameForms hsound hnone hname

theorem view_of_mem_moments {m : Moment} (h : m ∈ moments) :
    ∃ config, m.view = (tree config).view := by
  simp only [moments, List.mem_cons, List.not_mem_nil, or_false] at h
  rcases h with rfl | rfl | rfl <;> exact ⟨_, rfl⟩

end Sample

/-- Of three events one is taken; the flags hold over the config that it
brings. -/
theorem watch_agrees_with_check_reload :
    ∃ session,
      (Run.ofArgs .builtin (Sample.tree none).view
        (Command.watch.name :: Sample.args)).session
        = some session
      ∧ (Run.ofArgs .builtin (Sample.tree none).view
        (Command.watch.name :: Sample.args)).report.output
          ++ session.printed .builtin Sample.moments
        = utf8 "# options v1\ninclude  fn a\nexclude  fn b\n"
          ++ utf8 "# options v2\ninclude  fn a\ninclude  fn b\n" := by
  have hargs : Flag.parse Command.watch.flags Sample.args {}
      = .ok ({ config := utf8 "c.json", test := some true,
               features := [utf8 "x"] }, [utf8 "a.dream"]) := rfl
  have hviews : ∀ m ∈ Sample.moments, m.view.SameForms (utf8 "c.json")
      ∧ m.view.workFolder = (Sample.tree none).view.workFolder
      ∧ m.view.read (utf8 "a.dream") = (Sample.tree none).view.read
        (utf8 "a.dream") := by
    intro m hm
    obtain ⟨config, hview⟩ := Sample.view_of_mem_moments hm
    rw [hview]
    exact ⟨Sample.sameForms_tree config, rfl, by cases config <;> rfl⟩
  have hstart : (Run.ofArgs .builtin (Sample.tree none).view
      (Command.check.name :: Sample.args)).report.error = none := by
    decide +kernel
  have hwatch : (Run.ofArgs .builtin (Sample.tree none).view
      (Command.watch.name :: Sample.args)).report.error = none := by
    decide +kernel
  obtain ⟨-, hsession, hblocks⟩ :=
    (watch_agrees_with_check .builtin hargs rfl (by decide)
      (Sample.tree none).view Sample.moments (fun m hm => (hviews m hm).1)
      (fun m hm => (hviews m hm).2.1) (fun m hm => (hviews m hm).2.2)).2 hstart
  obtain ⟨session, hsome⟩ := Option.ne_none_iff_exists'.mp (hsession.mp hwatch)
  refine ⟨session, hsome, (hblocks session hsome).2.trans ?_⟩
  decide +kernel

end FeatureGate
