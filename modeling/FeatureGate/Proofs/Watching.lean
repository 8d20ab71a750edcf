import Mathlib
import FeatureGate.Config.Builtin
import FeatureGate.Watcher
import FeatureGate.Proofs.Publication

/-!
Runs of a watcher. Every event is handled with the files as they are at that
moment. It is taken when it is about the watched file and the file then gives
options; otherwise it is refused. The store holds the options of the last event
taken, under a version that counts the events taken.
-/

namespace FeatureGate

/-- An event, and the files at the moment when it is handled. -/
structure Moment where
  view : FileView
  event : FileEvent

namespace Moment

/-- The event may have changed the watched file, and the file gives these
options. -/
structure Taken (d : Decoders) (path : Bytes) (m : Moment)
    (o : CompileOptions) : Prop where
  name : Path.clean m.event.name = path
  kind : m.event.written = true ∨ m.event.created = true ∨
    m.event.renamed = true
  loads : ∃ config, Config.load d m.view path = .ok config
    ∧ config.options d m.view (Path.folder path) = .ok o

/-- The ways in which an event comes to nothing. -/
inductive Refused (d : Decoders) (path : Bytes) (m : Moment) : Prop
  | otherFile (h : Path.clean m.event.name ≠ path)
  | otherKind (hwritten : m.event.written = false)
      (hcreated : m.event.created = false)
      (hrenamed : m.event.renamed = false)
  | missing (h : m.view.read path = .error .missing)
  | unreadable {fault : FileFault} (hfault : fault ≠ .missing)
      (h : m.view.read path = .error fault)
  | undecodable {text : Bytes} (h : m.view.read path = .ok text)
      (hdecode : d.config? (ConfigFormat.ofPath path) text = none)
  | badManifest {config : Config} {error : ManifestError}
      (h : Config.load d m.view path = .ok config)
      (herror : config.options d m.view (Path.folder path) = .error error)

/-- The options that an event brings, if it is taken. -/
def options? (d : Decoders) (path : Bytes) (m : Moment) :
    Option CompileOptions :=
  if Path.clean m.event.name = path ∧
      (m.event.written = true ∨ m.event.created = true ∨
        m.event.renamed = true) then
    match Config.load d m.view path with
    | .ok config => (config.options d m.view (Path.folder path)).toOption
    | .error _ => none
  else none

/-- An event brings options exactly if it is taken. -/
theorem options?_eq_some_iff {d : Decoders} {path : Bytes} {m : Moment}
    {o : CompileOptions} :
    m.options? d path = some o ↔ m.Taken d path o := by
  constructor
  · intro h
    unfold options? at h
    split at h
    · rename_i hrelevant
      split at h
      · rename_i config hload
        cases hoptions : config.options d m.view (Path.folder path) with
        | error error => simp [hoptions, Except.toOption] at h
        | ok o' =>
            simp only [hoptions, Except.toOption, Option.some.injEq] at h
            exact ⟨hrelevant.1, hrelevant.2, config, hload, h ▸ hoptions⟩
      · simp at h
    · simp at h
  · rintro ⟨hname, hkind, config, hload, hoptions⟩
    simp [options?, hname, hkind, hload, hoptions, Except.toOption]

/-- A config that does not load is missing, unreadable or undecodable. -/
theorem refused_of_load {d : Decoders} {path : Bytes} {m : Moment}
    {fault : ConfigFault} (h : Config.load d m.view path = .error fault) :
    m.Refused d path := by
  unfold Config.load at h
  split at h
  · rename_i hread
    exact .missing hread
  · rename_i cause hmissing hread
    exact .unreadable hmissing hread
  · rename_i text hread
    simp only at h
    split at h
    · simp at h
    · rename_i hdecode
      exact .undecodable hread hdecode

theorem Refused.options?_eq_none {d : Decoders} {path : Bytes} {m : Moment}
    (h : m.Refused d path) :
    m.options? d path = none := by
  rw [Option.eq_none_iff_forall_ne_some]
  intro o ho
  obtain ⟨hname, hkind, config, hload, hoptions⟩ := options?_eq_some_iff.mp ho
  cases h with
  | otherFile h => exact h hname
  | otherKind hwritten hcreated hrenamed =>
      simp [hwritten, hcreated, hrenamed] at hkind
  | missing h => simp [Config.load, h] at hload
  | unreadable hfault h =>
      rename_i fault
      unfold Config.load at hload
      rw [h] at hload
      cases fault <;> simp at hload hfault
  | undecodable h hdecode => simp [Config.load, h, hdecode] at hload
  | badManifest h herror =>
      rw [h, Except.ok.injEq] at hload
      rw [hload, hoptions] at herror
      simp at herror

/-- Nothing else can happen to an event: what is not taken has a reason to be
refused. -/
theorem options?_eq_none_iff {d : Decoders} {path : Bytes} {m : Moment} :
    m.options? d path = none ↔ m.Refused d path := by
  constructor
  · intro h
    by_cases hname : Path.clean m.event.name = path
    · by_cases hkind : m.event.written = true ∨ m.event.created = true ∨
        m.event.renamed = true
      · rw [options?, if_pos ⟨hname, hkind⟩] at h
        cases hload : Config.load d m.view path with
        | error fault => exact refused_of_load hload
        | ok config =>
            cases hoptions : config.options d m.view (Path.folder path) with
            | error error => exact .badManifest hload hoptions
            | ok o => simp [hload, hoptions, Except.toOption] at h
      · simp only [not_or, Bool.not_eq_true] at hkind
        exact .otherKind hkind.1 hkind.2.1 hkind.2.2
    · exact .otherFile hname
  · exact Refused.options?_eq_none

end Moment

namespace Reaction

/-- The snapshot that the one who asked to be told of reloads is called with. -/
def call? : Reaction → Option Snapshot
  | .reloaded snapshot => some snapshot
  | _ => none

end Reaction

theorem Config.toOption_loadOptions (d : Decoders) (view : FileView)
    (path : Bytes) :
    (loadOptions d view path).toOption =
      match load d view path with
      | .ok config => (config.options d view (Path.folder path)).toOption
      | .error _ => none := by
  rw [loadOptions]
  cases hload : load d view path with
  | error fault => rfl
  | ok config =>
      cases h : config.options d view (Path.folder path)
        <;> simp [h, Except.mapError, Except.toOption]

namespace Watcher

/-- Handle events one after the other; each leads to a reaction. -/
def run (w : Watcher) (d : Decoders) : List Moment → Watcher × List Reaction
  | [] => (w, [])
  | m :: later =>
      let (next, reaction) := w.react d m.view m.event
      ((next.run d later).1, reaction :: (next.run d later).2)

def calls (w : Watcher) (d : Decoders) (moments : List Moment) :
    List Snapshot :=
  (w.run d moments).2.filterMap Reaction.call?

theorem isRelevant_iff {w : Watcher} {event : FileEvent} :
    w.isRelevant event = true ↔ Path.clean event.name = w.path ∧
      (event.written = true ∨ event.created = true ∨ event.renamed = true) := by
  simp [isRelevant, or_assoc]

/-- An event that is taken publishes its options and announces them. -/
theorem react_of_some {d : Decoders} {w : Watcher} {m : Moment}
    {o : CompileOptions} (h : m.options? d w.path = some o) :
    w.react d m.view m.event
      = ({ w with store := w.store.swap o },
        .reloaded (w.store.swap o).load) := by
  unfold Moment.options? at h
  split at h
  · rename_i hrelevant
    rw [react, if_pos (isRelevant_iff.mpr hrelevant), reload]
    rw [← Config.toOption_loadOptions] at h
    cases hload : Config.loadOptions d m.view w.path with
    | error fault => simp [hload, Except.toOption] at h
    | ok o' =>
        simp only [hload, Except.toOption, Option.some.injEq] at h
        rw [h]
  · simp at h

/-- Any other event leaves the watcher as it is and announces nothing. -/
theorem react_of_none {d : Decoders} {w : Watcher} {m : Moment}
    (h : m.options? d w.path = none) :
    (w.react d m.view m.event).1 = w ∧
      (w.react d m.view m.event).2.call? = none := by
  unfold react
  split
  · rename_i hrelevant
    rw [Moment.options?, if_pos (isRelevant_iff.mp hrelevant),
      ← Config.toOption_loadOptions] at h
    unfold reload
    cases hload : Config.loadOptions d m.view w.path with
    | error fault => exact ⟨rfl, rfl⟩
    | ok o => simp [hload, Except.toOption] at h
  · exact ⟨rfl, rfl⟩

theorem run_append (w : Watcher) (d : Decoders) (earlier later : List Moment) :
    w.run d (earlier ++ later) =
      (((w.run d earlier).1.run d later).1,
        (w.run d earlier).2 ++ ((w.run d earlier).1.run d later).2) := by
  induction earlier generalizing w with
  | nil => rfl
  | cons m earlier ih => simp only [List.cons_append, run, ih]

/-- A run swaps in what the events taken bring, and announces what the store
goes through. -/
theorem run_eq (w : Watcher) (d : Decoders) (moments : List Moment) :
    (w.run d moments).1
        = { w with
            store := (moments.filterMap (Moment.options? d w.path)).foldl
              Store.swap w.store }
      ∧ w.store.load :: w.calls d moments
        = w.store.history (moments.filterMap (Moment.options? d w.path)) := by
  induction moments generalizing w with
  | nil => exact ⟨rfl, rfl⟩
  | cons m moments ih =>
      cases h : m.options? d w.path with
      | none =>
          obtain ⟨hsame, hcall⟩ := react_of_none h
          rw [List.filterMap_cons_none h]
          simp only [run, calls, hsame, List.filterMap_cons_none hcall]
          exact ih w
      | some o =>
          have hreact := react_of_some h
          obtain ⟨hwatcher, hcalls⟩ := ih { w with store := w.store.swap o }
          rw [List.filterMap_cons_some h]
          simp only [run, calls, hreact]
          constructor
          · exact hwatcher
          · rw [Store.history, ← hcalls]
            rfl

end Watcher

namespace Store

theorem options_foldl_swap (store : Store) (swapped : List CompileOptions) :
    (swapped.foldl swap store).load.options =
      swapped.getLast?.getD store.load.options := by
  induction swapped generalizing store with
  | nil => rfl
  | cons options swapped ih =>
      rw [List.foldl_cons, ih, List.getLast?_cons]
      rfl

theorem map_options_history (store : Store) (swapped : List CompileOptions) :
    (store.history swapped).map Snapshot.options =
      store.load.options :: swapped := by
  induction swapped generalizing store with
  | nil => rfl
  | cons options swapped ih =>
      rw [history, List.map_cons, ih]
      rfl

end Store

open Moment Watcher

/-- A watcher keeps the last good options. After any events the store holds the
options of the last event taken, or its first ones; the version counts the
events taken; each of them was announced once, in order, with the snapshot
published for it; and a refused event, whatever the reason, changes nothing and
is not announced. -/
theorem watcher_keeps_last_good (d : Decoders) (w : Watcher)
    (moments : List Moment) :
    let taken := moments.filterMap (options? d w.path)
    let last := (w.run d moments).1
    (last.store.load.options = taken.getLast?.getD w.store.load.options
      ∧ last.store.load.version
        = w.store.load.version + UInt64.ofNat taken.length)
    ∧ ((w.calls d moments).map Snapshot.options = taken
      ∧ (w.calls d moments).map Snapshot.version
        = (List.range taken.length).map fun i =>
          w.store.load.version + UInt64.ofNat (i + 1))
    ∧ ∀ m : Moment,
      (∀ o, m.options? d w.path = some o ↔ m.Taken d w.path o)
      ∧ (m.options? d w.path = none ↔ m.Refused d w.path)
      ∧ (∀ o, m.Taken d w.path o →
        (w.run d (moments ++ [m])).1.store.load =
          ⟨last.store.load.version + 1, o⟩
        ∧ w.calls d (moments ++ [m])
          = w.calls d moments ++ [(w.run d (moments ++ [m])).1.store.load])
      ∧ (m.Refused d w.path →
        (w.run d (moments ++ [m])).1 = last
        ∧ w.calls d (moments ++ [m]) = w.calls d moments) := by
  obtain ⟨hlast, hcalls⟩ := run_eq w d moments
  have hpath : (w.run d moments).1.path = w.path := by rw [hlast]
  refine ⟨⟨?_, ?_⟩, ⟨?_, ?_⟩, fun m => ⟨fun o => options?_eq_some_iff,
    options?_eq_none_iff, fun o htaken => ?_, fun hrefused => ?_⟩⟩
  · rw [hlast]
    exact Store.options_foldl_swap _ _
  · rw [hlast]
    exact Store.version_foldl_swap _ _
  · have hoptions :=
      Store.map_options_history w.store (moments.filterMap (options? d w.path))
    rw [← hcalls] at hoptions
    exact (List.cons.inj hoptions).2
  · have hversions :=
      Store.map_version_history w.store (moments.filterMap (options? d w.path))
    rw [← hcalls, List.range_succ_eq_map, List.map_cons, List.map_cons,
      List.map_map] at hversions
    exact (List.cons.inj hversions).2
  · have hreact := react_of_some (w := (w.run d moments).1)
      (hpath ▸ options?_eq_some_iff.mpr htaken)
    simp only [calls, run_append, run, hreact, List.filterMap_append]
    exact ⟨rfl, rfl⟩
  · obtain ⟨hsame, hcall⟩ :=
      react_of_none (w := (w.run d moments).1)
        (hpath ▸ options?_eq_none_iff.mpr hrefused)
    simp only [calls, run_append, run, hsame, List.filterMap_append]
    simp [hcall]

namespace Sample

/-- A folder with an item file, a manifest and perhaps a config. -/
def tree (config : Option Bytes) : FileTree where
  workPlace := [utf8 "w"]
  files :=
    ([utf8 "w", utf8 "a.dream"],
      utf8 "#[cfg(all(test, feature = \"x\"))] fn a #[cfg(feature = \"y\")] fn b")
    :: ([utf8 "w", utf8 "m.json"],
      utf8 "\x7b\"features\": \x7b\"default\": \"y\"\x7d\x7d")
    :: config.toList.map fun text => ([utf8 "w", utf8 "c.json"], text)

def unfinished : Moment :=
  ⟨(tree (some (utf8 "\x7b"))).view,
    { name := utf8 "/w/c.json", created := true }⟩

def whole : Moment :=
  ⟨(tree (some
      (utf8 "\x7b\"manifest\": \x7b\"path\": \"m.json\"\x7d\x7d"))).view,
    { name := utf8 "/w/./c.json", written := true }⟩

def gone : Moment := ⟨(tree none).view, { name := utf8 "/w/c.json" }⟩

/-- The config is put in place unfinished, then whole, and taken away in the
end. -/
def moments : List Moment := [unfinished, whole, gone]

/-- The watcher of a config that is not there yet. -/
def watcher : Watcher := .new (tree none).view (utf8 "c.json") (.new {})

end Sample

/-- Only the whole config is taken, and its options stay when the file is
gone. -/
theorem watcher_keeps_last_good_gone :
    (Sample.unfinished.Refused .builtin Sample.watcher.path
      ∧ Sample.whole.Taken .builtin Sample.watcher.path
        (.withFeatures [utf8 "y"])
      ∧ Sample.gone.Refused .builtin Sample.watcher.path)
    ∧ (Sample.watcher.run .builtin Sample.moments).1.store.load =
      ⟨2, .withFeatures [utf8 "y"]⟩
    ∧ Sample.watcher.calls .builtin Sample.moments =
      [⟨2, .withFeatures [utf8 "y"]⟩] := by
  have hunfinished : Sample.unfinished.Refused .builtin Sample.watcher.path :=
    options?_eq_none_iff.mp (by decide +kernel)
  have hwhole : Sample.whole.Taken .builtin Sample.watcher.path
      (.withFeatures [utf8 "y"]) :=
    options?_eq_some_iff.mp (by decide +kernel)
  have hgone : Sample.gone.Refused .builtin Sample.watcher.path :=
    options?_eq_none_iff.mp (by decide +kernel)
  obtain ⟨hrun, hcalls⟩ :=
    ((watcher_keeps_last_good .builtin Sample.watcher []).2.2
      Sample.unfinished).2.2.2 hunfinished
  obtain ⟨hload, hcalls'⟩ :=
    ((watcher_keeps_last_good .builtin Sample.watcher [Sample.unfinished]).2.2
      Sample.whole).2.2.1 _ hwhole
  obtain ⟨hrun', hcalls''⟩ := ((watcher_keeps_last_good .builtin Sample.watcher
    [Sample.unfinished, Sample.whole]).2.2 Sample.gone).2.2.2 hgone
  simp only [List.nil_append,
    List.cons_append] at hrun hcalls hload hcalls' hrun' hcalls''
  rw [hrun] at hload
  refine ⟨⟨hunfinished, hwhole, hgone⟩, ?_, ?_⟩
  · rw [Sample.moments, hrun', hload]
    rfl
  · rw [Sample.moments, hcalls'', hcalls', hcalls, hload]
    rfl

end FeatureGate
