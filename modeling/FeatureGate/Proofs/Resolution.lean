import Mathlib
import FeatureGate.CommandLine.Options
import FeatureGate.Config.Builtin

/-!
Where options come from. Flags, config file and manifest each add features, and
the test mode of the flags goes over that of the config. What may be absent and
what may not is said here by relations, one for each of the manifest's value,
the manifest and the whole, and each is shown to be all that can happen.
-/

namespace FeatureGate

namespace Found

/-- The names in a value: a text is one name, and a list of nothing but texts is
a list of names. -/
inductive Names : Found → List Bytes → Prop
  | text (value : Bytes) : Names (.text value) [value]
  | list (values : List Bytes) : Names (.list (values.map .text)) values

/-- Why there are no names in a value: a list has an element that is no text, of
which the first is reported, or the value is neither a text nor a list. -/
inductive NoNames (query : Bytes) : Found → ManifestFault → Prop
  | element (values : List Bytes) (raw : Bytes) (rest : List Element) :
      NoNames query (.list (values.map .text ++ .other raw :: rest))
        (.nonString query raw)
  | other : NoNames query .other (.notNames query)

/-- A list is made of texts, or there is a first element that is none. -/
theorem texts_or_first (elements : List Element) :
    (∃ values : List Bytes, elements = values.map .text) ∨
      ∃ (values : List Bytes) (raw : Bytes) (rest : List Element),
        elements = values.map .text ++ .other raw :: rest := by
  induction elements with
  | nil => exact Or.inl ⟨[], rfl⟩
  | cons first elements ih =>
      cases first with
      | text value =>
          rcases ih with ⟨values, rfl⟩ | ⟨values, raw, rest, rfl⟩
          · exact Or.inl ⟨value :: values, rfl⟩
          · exact Or.inr ⟨value :: values, raw, rest, rfl⟩
      | other raw => exact Or.inr ⟨[], raw, elements, rfl⟩

/-- A value has names, or there is a reason why not. -/
theorem names_or_noNames (query : Bytes) (value : Found) :
    (∃ names, value.Names names) ∨ ∃ fault, value.NoNames query fault := by
  cases value with
  | text value => exact Or.inl ⟨_, .text value⟩
  | list elements =>
      rcases texts_or_first elements with
        ⟨values, rfl⟩ | ⟨values, raw, rest, rfl⟩
      · exact Or.inl ⟨_, .list values⟩
      · exact Or.inr ⟨_, .element values raw rest⟩
  | other => exact Or.inr ⟨_, .other⟩

end Found

namespace Manifest

theorem names_texts (query : Bytes) (values : List Bytes) :
    names query (values.map .text) = .ok values := by
  induction values with
  | nil => rfl
  | cons value values ih =>
      rw [List.map_cons, names, ih]
      rfl

theorem names_element (query : Bytes) (values : List Bytes) (raw : Bytes)
    (rest : List Element) :
    names query (values.map .text ++ .other raw :: rest)
      = .error (.nonString query raw) := by
  induction values with
  | nil => rfl
  | cons value values ih =>
      rw [List.map_cons, List.cons_append, names, ih]
      rfl

theorem found_of_names {query : Bytes} {value : Found} {listed : List Bytes}
    (h : value.Names listed) : found query (some value) = .ok listed := by
  cases h with
  | text value => rfl
  | list => exact names_texts query listed

theorem found_of_noNames {query : Bytes} {value : Found} {fault : ManifestFault}
    (h : value.NoNames query fault) :
    found query (some value) = .error fault := by
  cases h with
  | element values raw rest => exact names_element query values raw rest
  | other => rfl

/-- The query that is asked: `features.default` where none is given. -/
def asked (query : Bytes) : Bytes :=
  if query = [] then utf8 "features.default" else query

/-- The names that a manifest gives. Where the query finds nothing there are
none. -/
inductive Gives (d : Decoders) (view : FileView) (path query : Bytes) :
    List Bytes → Prop
  | absent {text : Bytes} (hread : view.read path = .ok text)
      (hjson : d.isJson text = true)
      (hfind : d.find? text (asked query) = none) : Gives d view path query []
  | present {text : Bytes} {found : Found} {names : List Bytes}
      (hread : view.read path = .ok text) (hjson : d.isJson text = true)
      (hfind : d.find? text (asked query) = some found)
      (hnames : found.Names names) : Gives d view path query names

/-- Why a manifest gives no names: its file cannot be read, holds no JSON, or
has a value at the query in which there are no names. -/
inductive Fails (d : Decoders) (view : FileView) (path query : Bytes) :
    ManifestFault → Prop
  | unreadable {fault : FileFault} (hread : view.read path = .error fault) :
      Fails d view path query (.unreadable fault)
  | invalid {text : Bytes} (hread : view.read path = .ok text)
      (hjson : d.isJson text = false) : Fails d view path query .invalidJson
  | value {text : Bytes} {found : Found} {fault : ManifestFault}
      (hread : view.read path = .ok text) (hjson : d.isJson text = true)
      (hfind : d.find? text (asked query) = some found)
      (hfault : found.NoNames (asked query) fault) :
      Fails d view path query fault

variable {d : Decoders} {view : FileView} {path query : Bytes}

/-- A manifest gives names, or there is a reason why not. -/
theorem gives_or_fails (d : Decoders) (view : FileView) (path query : Bytes) :
    (∃ names, Gives d view path query names)
      ∨ ∃ fault, Fails d view path query fault := by
  cases hread : view.read path with
  | error fault => exact Or.inr ⟨_, .unreadable hread⟩
  | ok text =>
      cases hjson : d.isJson text with
      | false => exact Or.inr ⟨_, .invalid hread hjson⟩
      | true =>
          cases hfind : d.find? text (asked query) with
          | none => exact Or.inl ⟨_, .absent hread hjson hfind⟩
          | some found =>
              rcases found.names_or_noNames (asked query) with
                ⟨names, hnames⟩ | ⟨fault, hfault⟩
              · exact Or.inl ⟨_, .present hread hjson hfind hnames⟩
              · exact Or.inr ⟨_, .value hread hjson hfind hfault⟩

theorem featuresIn_eq {text : Bytes} (hjson : d.isJson text = true) :
    featuresIn d text query
      = found (asked query) (d.find? text (asked query)) := by
  have hasked : (if query.isEmpty then defaultQuery else query) =
      asked query := by
    simp [asked, defaultQuery]
  simp only [featuresIn, hjson, if_true, hasked]

theorem features_of_read {text : Bytes} (hread : view.read path = .ok text) :
    features d view path query
      = (featuresIn d text query).mapError (⟨path, ·⟩) := by
  simp only [features, hread]

theorem Gives.features_eq {names : List Bytes}
    (h : Gives d view path query names) :
    features d view path query = .ok names := by
  cases h with
  | absent hread hjson hfind =>
      rw [features_of_read hread, featuresIn_eq hjson, hfind]
      rfl
  | present hread hjson hfind hnames =>
      rw [features_of_read hread, featuresIn_eq hjson, hfind,
        found_of_names hnames]
      rfl

theorem Fails.features_eq {fault : ManifestFault}
    (h : Fails d view path query fault) :
    features d view path query = .error ⟨path, fault⟩ := by
  cases h with
  | unreadable hread => simp only [features, hread]
  | invalid hread hjson =>
      rw [features_of_read hread, featuresIn, hjson]
      rfl
  | value hread hjson hfind hfault =>
      rw [features_of_read hread, featuresIn_eq hjson, hfind,
        found_of_noNames hfault]
      rfl

end Manifest

/-- Two sets with the same members are the same set. -/
theorem FeatureSet.eq_of_mem_iff {set set' : FeatureSet}
    (h : ∀ name, name ∈ set ↔ name ∈ set') :
    set = set' := by
  have hnodup : ∀ set : FeatureSet, set.names.Nodup := by
    intro set
    refine set.ascending.imp ?_
    rintro a b hlt rfl
    exact List.lt_irrefl a hlt
  have hperm : set.names.Perm set'.names :=
    (List.perm_ext_iff_of_nodup (hnodup set) (hnodup set')).mpr h
  refine FeatureSet.ext (hperm.eq_of_pairwise ?_ set.ascending set'.ascending)
  intro a b _ _ hab hba
  exact absurd hba (List.lt_asymm hab)

namespace CompileOptions

/-- Options are known from their members. -/
theorem eq_of_hasFeature_iff {o o' : CompileOptions} (htest : o.test = o'.test)
    (h : ∀ name, o.hasFeature name = true ↔ o'.hasFeature name = true) :
    o = o' := by
  refine CompileOptions.ext htest (FeatureSet.eq_of_mem_iff fun name => ?_)
  simpa [hasFeature] using h name

theorem hasFeature_withFeatures {names : List Bytes} {name : Bytes} :
    (withFeatures names).hasFeature name = true ↔ name ∈ names := by
  simp [withFeatures, hasFeature]

theorem hasFeature_foldl_enable {names : List Bytes} {o : CompileOptions}
    {name : Bytes} :
    (names.foldl enable o).hasFeature name = true ↔
      name ∈ names ∨ o.hasFeature name = true := by
  induction names generalizing o with
  | nil => simp
  | cons other names ih =>
      rw [List.foldl_cons, ih, hasFeature_enable, Bool.or_eq_true,
        decide_eq_true_eq, List.mem_cons]
      tauto

theorem test_foldl_enable (names : List Bytes) (o : CompileOptions) :
    (names.foldl enable o).test = o.test := by
  induction names generalizing o with
  | nil => rfl
  | cons other names ih => exact ih (o.enable other)

end CompileOptions

open CompileOptions

/-- Where a path leads that is read from a folder. -/
def Path.readFrom (folder path : Bytes) : Bytes :=
  if isAbsolute path then path else join folder path

namespace Config

variable {config : Config} {d : Decoders} {view : FileView} {folder : Bytes}

theorem manifestFeatures_of_path_eq_nil (h : config.manifest.path = []) :
    config.manifestFeatures d view folder = .ok [] := by
  simp [manifestFeatures, manifestPath?, h]

theorem manifestFeatures_of_path_ne_nil (h : config.manifest.path ≠ []) :
    config.manifestFeatures d view folder
      = Manifest.features d view (Path.readFrom folder config.manifest.path)
          config.manifest.query := by
  simp [manifestFeatures, manifestPath?, h, Path.readFrom]

end Config

namespace Settings

/-- The flags name a config file, and this is what it says. -/
structure Loads (s : Settings) (d : Decoders) (view : FileView)
    (config : Config) : Prop where
  given : s.config ≠ []
  decoded : ∃ text, view.read s.config = .ok text
    ∧ d.config? (ConfigFormat.ofPath s.config) text = some config

/-- The place of the manifest that a config names. -/
def manifestPlace (s : Settings) (config : Config) : Bytes :=
  Path.readFrom (Path.folder s.config) config.manifest.path

/-- Why there are no options. That the config file is missing is no reason. -/
inductive Fails (s : Settings) (d : Decoders) (view : FileView) :
    ReloadFault → Prop
  | unreadable {fault : FileFault} (hgiven : s.config ≠ [])
      (hread : view.read s.config = .error fault) (hfault : fault ≠ .missing) :
      Fails s d view (.config (.unreadable fault))
  | undecodable {text : Bytes} (hgiven : s.config ≠ [])
      (hread : view.read s.config = .ok text)
      (hdecode : d.config? (ConfigFormat.ofPath s.config) text = none) :
      Fails s d view (.config (.malformed (ConfigFormat.ofPath s.config)))
  | manifest {config : Config} {fault : ManifestFault}
      (hloads : s.Loads d view config)
      (hpath : config.manifest.path ≠ [])
      (hfault : Manifest.Fails d view
        (s.manifestPlace config) config.manifest.query fault) :
      Fails s d view (.manifest ⟨s.manifestPlace config, fault⟩)

/-- What the files say: the test mode and the features of the config, and the
names in its manifest. Where no config is given, or it is missing, nothing is
said. -/
inductive Provides (s : Settings) (d : Decoders) (view : FileView) :
    (test : Bool) → (features names : List Bytes) → Prop
  | nothing (h : s.config = [] ∨ view.read s.config = .error .missing) :
      Provides s d view false [] []
  | config {config : Config} (hloads : s.Loads d view config)
      (hpath : config.manifest.path = []) :
      Provides s d view config.test config.features []
  | manifest {config : Config} {names : List Bytes}
      (hloads : s.Loads d view config)
      (hpath : config.manifest.path ≠ [])
      (hnames : Manifest.Gives d view
        (s.manifestPlace config) config.manifest.query names) :
      Provides s d view config.test config.features names

variable {s : Settings} {d : Decoders} {view : FileView}

/-- Nothing else can happen. -/
theorem provides_or_fails (s : Settings) (d : Decoders) (view : FileView) :
    (∃ test features names, s.Provides d view test features names) ∨
      ∃ fault, s.Fails d view fault := by
  by_cases hgiven : s.config = []
  · exact Or.inl ⟨_, _, _, .nothing (Or.inl hgiven)⟩
  · cases hread : view.read s.config with
    | error fault =>
        by_cases hmissing : fault = .missing
        · subst hmissing
          exact Or.inl ⟨_, _, _, .nothing (Or.inr hread)⟩
        · exact Or.inr ⟨_, .unreadable hgiven hread hmissing⟩
    | ok text =>
        cases hdecode : d.config? (ConfigFormat.ofPath s.config) text with
        | none => exact Or.inr ⟨_, .undecodable hgiven hread hdecode⟩
        | some config =>
            have hloads : s.Loads d view config :=
              ⟨hgiven, text, hread, hdecode⟩
            by_cases hpath : config.manifest.path = []
            · exact Or.inl ⟨_, _, _, .config hloads hpath⟩
            · rcases Manifest.gives_or_fails d view (s.manifestPlace config)
                  config.manifest.query with ⟨names, hnames⟩ | ⟨fault, hfault⟩
              · exact Or.inl ⟨_, _, _, .manifest hloads hpath hnames⟩
              · exact Or.inr ⟨_, .manifest hloads hpath hfault⟩

theorem Loads.load_eq {config : Config} (h : s.Loads d view config) :
    Config.load d view s.config = .ok config := by
  obtain ⟨-, text, hread, hdecode⟩ := h
  simp only [Config.load, hread, hdecode]

theorem Loads.options_eq {config : Config} (h : s.Loads d view config)
    {names : List Bytes}
    (hnames : config.manifestFeatures d view (Path.folder s.config) =
      .ok names) :
    s.options d view
      = .ok (s.applyTo
        ((withFeatures (config.features ++ names)).setTest config.test)) := by
  have hload : Config.loadOptions d view s.config
      = .ok ((withFeatures (config.features ++ names)).setTest
        config.test) := by
    simp only [Config.loadOptions, h.load_eq, Config.options, hnames]
    rfl
  rw [options, configOptions, if_neg (by simpa using h.given), hload]
  rfl

/-- What the files provide goes below the flags. -/
theorem Provides.options_eq {test : Bool} {features names : List Bytes}
    (h : s.Provides d view test features names) :
    s.options d view =
      .ok (s.applyTo ((withFeatures (features ++ names)).setTest test)) := by
  cases h with
  | nothing h =>
      have hconfig : s.configOptions d view = .ok {} := by
        rw [configOptions]
        split
        · rfl
        · rename_i hgiven
          have hread := h.resolve_left (by simpa using hgiven)
          simp only [Config.loadOptions, Config.load, hread]
      rw [options, hconfig]
      rfl
  | config hloads hpath =>
      exact hloads.options_eq (Config.manifestFeatures_of_path_eq_nil hpath)
  | manifest hloads hpath hnames =>
      apply hloads.options_eq
      rw [Config.manifestFeatures_of_path_ne_nil hpath]
      exact hnames.features_eq

/-- Any fault but a missing config is passed on. -/
theorem options_of_error (hgiven : s.config ≠ []) {fault : ReloadFault}
    (h : Config.loadOptions d view s.config = .error fault)
    (hfault : fault ≠ .config .notFound) :
    s.options d view = .error fault := by
  rw [options, configOptions, if_neg (by simpa using hgiven), h]
  cases fault with
  | config fault =>
      cases fault with
      | notFound => exact absurd rfl hfault
      | unreadable | malformed => rfl
  | manifest error => rfl

theorem Fails.options_eq {fault : ReloadFault} (h : s.Fails d view fault) :
    s.options d view = .error fault := by
  cases h with
  | @unreadable fault hgiven hread hfault =>
      refine options_of_error hgiven ?_ (by simp)
      cases fault with
      | missing => exact absurd rfl hfault
      | notFolder | isFolder | nameTooLong | invalidName =>
          simp only [Config.loadOptions, Config.load, hread]
  | undecodable hgiven hread hdecode =>
      refine options_of_error hgiven ?_ (by simp)
      simp only [Config.loadOptions, Config.load, hread, hdecode]
  | manifest hloads hpath hfault =>
      refine options_of_error hloads.given ?_ (by simp)
      have hfeatures := hfault.features_eq
      rw [manifestPlace,
        ← Config.manifestFeatures_of_path_ne_nil hpath] at hfeatures
      simp only [Config.loadOptions, hloads.load_eq, Config.options, hfeatures]
      rfl

/-- The options fail for the listed reasons and for no others. -/
theorem options_eq_error_iff {fault : ReloadFault} :
    s.options d view = .error fault ↔ s.Fails d view fault := by
  constructor
  · intro h
    rcases provides_or_fails s d view
      with ⟨test, features, names, hprovides⟩ | ⟨other, hfails⟩
    · rw [hprovides.options_eq] at h
      cases h
    · rw [hfails.options_eq, Except.error.injEq] at h
      exact h ▸ hfails
  · exact Fails.options_eq

theorem test_applyTo (s : Settings) (o : CompileOptions) :
    (s.applyTo o).test = s.test.getD o.test := by
  rw [applyTo, test_foldl_enable]
  cases s.test <;> rfl

theorem hasFeature_applyTo {o : CompileOptions} {name : Bytes} :
    (s.applyTo o).hasFeature name = true ↔
      name ∈ s.features ∨ o.hasFeature name = true := by
  rw [applyTo, hasFeature_foldl_enable]
  cases s.test <;> rfl

/-- The options put together from what the files say and what the flags say. -/
structure Combines (s : Settings) (test : Bool) (features names : List Bytes)
    (o : CompileOptions) : Prop where
  test_eq : o.test = s.test.getD test
  hasFeature_iff : ∀ name,
    o.hasFeature name = true ↔ name ∈ s.features ∨ name ∈ features ∨
      name ∈ names

/-- Putting the flags over what the files say combines them. -/
theorem combines_applyTo (s : Settings) (test : Bool)
    (features names : List Bytes) :
    s.Combines test features names
      (s.applyTo ((withFeatures (features ++ names)).setTest test)) := by
  constructor
  · exact test_applyTo s _
  · intro name
    rw [hasFeature_applyTo]
    change name ∈ s.features ∨
      (withFeatures (features ++ names)).hasFeature name = true ↔ _
    rw [hasFeature_withFeatures, List.mem_append]

theorem Provides.options_eq_ok_iff {test : Bool} {features names : List Bytes}
    (h : s.Provides d view test features names) {o : CompileOptions} :
    s.options d view = .ok o ↔ s.Combines test features names o := by
  have hcombines := combines_applyTo s test features names
  rw [h.options_eq, Except.ok.injEq]
  constructor
  · rintro rfl
    exact hcombines
  · intro ho
    apply eq_of_hasFeature_iff (hcombines.test_eq.trans ho.test_eq.symm)
    intro name
    rw [hcombines.hasFeature_iff, ho.hasFeature_iff]

end Settings

/-- Options fail exactly for the listed reasons. Otherwise the files provide a
test mode, features and names, and the options are those with the test mode of
the flags, or else of the files, and with the features of the flags, of the
config and of the manifest. They depend on nothing but these members. -/
theorem options_combine_sources (d : Decoders) (s : Settings)
    (view : FileView) :
    (∀ fault, s.options d view = .error fault ↔ s.Fails d view fault) ∧
    ((∀ fault, ¬ s.Fails d view fault) →
      ∃ test features names, s.Provides d view test features names) ∧
    (∀ test features names, s.Provides d view test features names →
      (∃ o, s.options d view = .ok o) ∧
        ∀ o, s.options d view = .ok o ↔ s.Combines test features names o) ∧
    ∀ (s' : Settings) (view' : FileView) (test : Bool)
      (features names features' names' : List Bytes),
      s.Provides d view test features names →
        s'.Provides d view' test features' names' →
      s.test = s'.test →
      (∀ name, name ∈ s.features ∨ name ∈ features ∨ name ∈ names
        ↔ name ∈ s'.features ∨ name ∈ features' ∨ name ∈ names') →
        s.options d view = s'.options d view' := by
  refine ⟨fun _ => Settings.options_eq_error_iff, ?_, ?_, ?_⟩
  · intro h
    exact (Settings.provides_or_fails s d view).resolve_right (not_exists.mpr h)
  · intro test features names h
    exact ⟨⟨_, h.options_eq⟩, fun _ => h.options_eq_ok_iff⟩
  · intro s' view' test features names features' names' h h' htest hmem
    rw [h'.options_eq, h.options_eq_ok_iff]
    have hcombines := s'.combines_applyTo test features' names'
    constructor
    · rw [hcombines.test_eq, htest]
    · intro name
      rw [hcombines.hasFeature_iff, hmem]

namespace Combined

/-- A config that names features twice and a manifest beside it. -/
def configText : Bytes :=
  utf8 "\x7b\"test\":true,\"features\":[\"b\",\"a\",\"b\"],"
    ++ utf8 "\"manifest\":\x7b\"path\":\"p.json\"\x7d\x7d"

/-- A config whose query leads to a list with a number in it. -/
def numberText : Bytes :=
  utf8 "\x7b\"manifest\":\x7b\"path\":\"p.json\",\"query\":\"bad\"\x7d\x7d"

def manifestText : Bytes :=
  utf8 "\x7b\"features\":\x7b\"default\":[\"m\",\"a\"]\x7d,\"bad\":[\"m\",1]\x7d"

def tree : FileTree where
  workPlace := [utf8 "w"]
  files := [([utf8 "w", utf8 "c", utf8 "d.json"], configText),
    ([utf8 "w", utf8 "c", utf8 "e.json"], numberText),
    ([utf8 "w", utf8 "c", utf8 "p.json"], manifestText)]

def settings : Settings where
  config := utf8 "c/d.json"
  test := some false
  features := [utf8 "f", utf8 "a"]

def reordered : Settings :=
  { settings with features := [utf8 "a", utf8 "f", utf8 "f"] }

def numbered : Settings where
  config := utf8 "c/e.json"

theorem read_manifest :
    tree.view.read (utf8 "c/p.json") = .ok manifestText := by
  cbv

theorem isJson_manifest : Decoders.builtin.isJson manifestText = true := by
  decide +kernel

theorem provides {s : Settings} (hconfig : s.config = utf8 "c/d.json") :
    s.Provides .builtin tree.view true [utf8 "b", utf8 "a", utf8 "b"]
      [utf8 "m", utf8 "a"] := by
  have hloads : s.Loads .builtin tree.view
      ⟨true, [utf8 "b", utf8 "a", utf8 "b"], ⟨utf8 "p.json", []⟩⟩ := by
    refine ⟨by rw [hconfig]; decide, configText, ?_, ?_⟩
    · rw [hconfig]
      cbv
    · rw [hconfig]
      decide +kernel
  have hplace : s.manifestPlace
      ⟨true, [utf8 "b", utf8 "a", utf8 "b"], ⟨utf8 "p.json", []⟩⟩
        = utf8 "c/p.json" := by
    rw [Settings.manifestPlace, hconfig]
    decide +kernel
  have hfind : Decoders.builtin.find? manifestText (Manifest.asked [])
      = some (.list ([utf8 "m", utf8 "a"].map .text)) := by
    decide +kernel
  refine .manifest hloads (by decide) ?_
  rw [hplace]
  exact .present read_manifest isJson_manifest hfind (.list _)

theorem fails : numbered.Fails .builtin tree.view
    (.manifest ⟨utf8 "c/p.json", .nonString (utf8 "bad") (utf8 "1")⟩) := by
  have hloads : numbered.Loads .builtin tree.view
      ⟨false, [], ⟨utf8 "p.json", utf8 "bad"⟩⟩ :=
    ⟨by decide, numberText, by cbv, by decide +kernel⟩
  have hplace : numbered.manifestPlace
      ⟨false, [], ⟨utf8 "p.json", utf8 "bad"⟩⟩ = utf8 "c/p.json" := by
    decide +kernel
  have hfind : Decoders.builtin.find? manifestText (Manifest.asked (utf8 "bad"))
      = some (.list ([utf8 "m"].map .text ++ [.other (utf8 "1")])) := by
    decide +kernel
  have hasked : Manifest.asked (utf8 "bad") = utf8 "bad" := by decide
  have hmanifest : Manifest.Fails .builtin tree.view (utf8 "c/p.json")
      (utf8 "bad") (.nonString (utf8 "bad") (utf8 "1")) := by
    refine .value read_manifest isJson_manifest hfind ?_
    rw [hasked]
    exact .element [utf8 "m"] _ []
  rw [← hplace] at hmanifest ⊢
  exact .manifest hloads (by decide) hmanifest

end Combined

open Combined

/-- The flags turn the test mode off again and add a feature; their order makes
no difference. And a number in the list of the manifest leaves nothing but the
fault. -/
theorem options_combine_sources_manifest :
    settings.Provides .builtin tree.view true [utf8 "b", utf8 "a", utf8 "b"]
        [utf8 "m", utf8 "a"]
      ∧ settings.options .builtin tree.view
        = .ok (.withFeatures [utf8 "a", utf8 "b", utf8 "f", utf8 "m"])
      ∧ (∀ fault, ¬ settings.Fails .builtin tree.view fault)
      ∧ settings.options .builtin tree.view =
        reordered.options .builtin tree.view
      ∧ numbered.options .builtin tree.view
        = .error (.manifest
          ⟨utf8 "c/p.json", .nonString (utf8 "bad") (utf8 "1")⟩) := by
  have hprovides : settings.Provides .builtin tree.view true
      [utf8 "b", utf8 "a", utf8 "b"] [utf8 "m", utf8 "a"] := provides rfl
  have hreordered : reordered.Provides .builtin tree.view true
      [utf8 "b", utf8 "a", utf8 "b"] [utf8 "m", utf8 "a"] := provides rfl
  obtain ⟨herror, -, hok, hsame⟩ :=
    options_combine_sources .builtin settings tree.view
  have hoptions : settings.options .builtin tree.view
      = .ok (.withFeatures [utf8 "a", utf8 "b", utf8 "f", utf8 "m"]) := by
    refine ((hok _ _ _ hprovides).2 _).mpr ⟨rfl, fun name => ?_⟩
    rw [CompileOptions.hasFeature_withFeatures]
    simp only [settings, List.mem_cons, List.not_mem_nil, or_false]
    grind
  refine ⟨hprovides, hoptions, ?_, ?_, ?_⟩
  · intro fault hfault
    rw [(herror fault).mpr hfault] at hoptions
    cases hoptions
  · refine hsame reordered tree.view true _ _ _ _ hprovides hreordered rfl
      fun name => ?_
    simp only [settings, reordered, List.mem_cons, List.not_mem_nil, or_false]
    grind
  · exact ((options_combine_sources .builtin numbered tree.view).1 _).mpr fails

end FeatureGate
