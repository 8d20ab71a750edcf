import Mathlib
import FeatureGate.Proofs.Registers

/-!
What the registers of a program hold. Each holds the options to which the
changes on the way to it lead, the last of them on each name, and goes on
holding them while further registers are filled.
-/

namespace FeatureGate

namespace Registers

open FeatureSet

variable {program more : List Instruction} {instruction : Instruction}
    {s s' : State}

/-- Every register of a program holds the options that its lineage leads to. -/
structure Tracks (program : List Instruction) (s : State) : Prop where
  length_eq : s.registers.length = program.length
  valid : ∀ o ∈ s.registers, o.Valid s.heap
  lineage : ∀ {r : Nat} {o : Handle}, s.registers[r]? = some o →
    ∃ origin changes, Lineage program r origin changes
      ∧ o.options s.heap = changes.foldl Change.apply origin.options

theorem Tracks.push (h : Tracks program s) {made : List FeatureSet × Handle}
    {origin : Origin} {changes : List Change}
    (hlineage : Lineage (program ++ [instruction]) program.length
      origin changes)
    (hmakes : Makes s.heap (changes.foldl Change.apply origin.options) made) :
    Tracks (program ++ [instruction]) (s.push made) where
  length_eq := by simp [State.push, h.length_eq]
  valid := by
    intro o ho
    rcases List.mem_append.mp ho with ho | ho
    · exact (h.valid o ho).mono hmakes.grows
    · rw [List.mem_singleton.mp ho]
      exact hmakes.valid
  lineage := by
    intro r o ho
    -- The sets of the earlier registers are where they were, and so are their
    -- instructions.
    by_cases hr : r < s.registers.length
    · have hold : s.registers[r]? = some o := by
        rwa [State.push, List.getElem?_append_left hr] at ho
      obtain ⟨origin', changes', hlineage', hoptions⟩ := h.lineage hold
      refine ⟨origin', changes', hlineage'.append [instruction], ?_⟩
      have hvalid := h.valid o (List.mem_of_getElem? hold)
      exact (hvalid.options_mono hmakes.grows).trans hoptions
    · have hlast : r = s.registers.length ∧ made.2 = o := by
        rw [State.push, List.getElem?_append_right (Nat.le_of_not_lt hr),
          List.getElem?_singleton] at ho
        split at ho
        · exact ⟨by omega, Option.some.inj ho⟩
        · cases ho
      obtain ⟨rfl, rfl⟩ := hlast
      exact ⟨origin, changes, h.length_eq ▸ hlineage, hmakes.options_eq⟩

/-- An instruction keeps every register what its lineage says. -/
theorem Tracks.step (h : Tracks program s) (hstep : Step s instruction s') :
    Tracks (program ++ [instruction]) s' := by
  cases hstep with
  | construct origin =>
      have hlineage :
          Lineage (program ++ [.construct origin]) program.length origin [] :=
        .construct (by simp)
      exact h.push hlineage (makes_construct s.heap origin)
  | @derive source o keys change ho hkeys =>
      obtain ⟨origin, changes, hsource, hoptions⟩ := h.lineage ho
      have hlineage :
          Lineage (program ++ [.derive source change]) program.length origin
          (changes ++ [change]) := .derive (by simp) (hsource.append _)
      apply h.push hlineage
      rw [List.foldl_append, ← hoptions]
      exact makes_change (h.valid o (List.mem_of_getElem? ho)) hkeys change

/-- A step leaves memory and the registers as they were, but for what it
adds. -/
theorem Step.grows (hvalid : ∀ o ∈ s.registers, o.Valid s.heap)
    (h : Step s instruction s') :
    s.heap <+: s'.heap ∧ s.registers <+: s'.registers := by
  cases h with
  | construct origin =>
      exact ⟨(makes_construct s.heap origin).grows, List.prefix_append _ _⟩
  | derive change ho hkeys =>
      have hmakes :=
        makes_change (hvalid _ (List.mem_of_getElem? ho)) hkeys change
      exact ⟨hmakes.grows, List.prefix_append _ _⟩

/-- So does a whole program, and heap and registers only grow. -/
theorem Tracks.runs (h : Tracks program s) (hmore : Runs s more s') :
    Tracks (program ++ more) s' ∧ s.heap <+: s'.heap ∧
      s.registers <+: s'.registers := by
  induction hmore with
  | nil =>
      rw [List.append_nil]
      exact ⟨h, List.prefix_refl _, List.prefix_refl _⟩
  | snoc _ hstep ih =>
      obtain ⟨htracks, hheap, hregisters⟩ := ih
      obtain ⟨hheap', hregisters'⟩ := hstep.grows htracks.valid
      rw [← List.append_assoc]
      exact ⟨htracks.step hstep, hheap.trans hheap',
        hregisters.trans hregisters'⟩

theorem tracks_of_runs (h : Runs {} program s) : Tracks program s := by
  have hempty : Tracks [] {} := ⟨rfl, by simp, by simp⟩
  exact (hempty.runs h).1

theorem wellFormed_append_singleton :
    WellFormed (program ++ [instruction]) ↔
      WellFormed program ∧
        ∀ source ∈ instruction.source?, source < program.length := by
  constructor
  · intro h
    constructor
    · intro r hr
      have hlater := h r (by simp; omega)
      rwa [List.getElem?_append_left hr] at hlater
    · have hlast := h program.length (by simp)
      simpa using hlast
  · rintro ⟨hprogram, hinstruction⟩ r hr
    by_cases hold : r < program.length
    · rw [List.getElem?_append_left hold]
      exact hprogram r hold
    · obtain rfl : r = program.length := by
        rw [List.length_append, List.length_singleton] at hr
        omega
      simpa using hinstruction

theorem exists_step
    (h : ∀ source ∈ instruction.source?, source < s.registers.length) :
    ∃ s', Step s instruction s' := by
  cases instruction with
  | construct origin => exact ⟨_, .construct origin⟩
  | derive source change =>
      have hsource := List.getElem?_eq_getElem (h source rfl)
      exact ⟨_, .derive change hsource (ranges_names _)⟩

theorem Step.source_lt (h : Step s instruction s') :
    ∀ source ∈ instruction.source?, source < s.registers.length := by
  cases h with
  | construct origin => simp [Instruction.source?]
  | derive change ho hkeys =>
      intro source hsource
      obtain rfl := Option.mem_some.mp hsource
      exact (List.getElem?_eq_some_iff.mp ho).1

/-- The programs that run are those whose steps start from earlier registers. -/
theorem wellFormed_iff_exists_runs :
    WellFormed program ↔ ∃ s, Runs {} program s := by
  induction program using List.reverseRecOn with
  | nil => exact ⟨fun _ => ⟨_, .nil⟩, fun _ => by simp [WellFormed]⟩
  | append_singleton program instruction ih =>
      rw [wellFormed_append_singleton, ih]
      constructor
      · rintro ⟨⟨s, hruns⟩, hsource⟩
        rw [← (tracks_of_runs hruns).length_eq] at hsource
        obtain ⟨s', hstep⟩ := exists_step hsource
        exact ⟨s', hruns.snoc hstep⟩
      · rintro ⟨s', hruns⟩
        -- The last step of the run is that of the last instruction.
        generalize hprogram : program ++ [instruction] = whole at hruns
        cases hruns with
        | nil => simp at hprogram
        | @snoc _ _ s _ hruns hstep =>
            obtain ⟨rfl, rfl⟩ := List.append_singleton_inj.mp hprogram
            rw [← (tracks_of_runs hruns).length_eq]
            exact ⟨⟨s, hruns⟩, hstep.source_lt⟩

/-- The answers to the question for all features: a loop over the set collects
them in some order, and then they are sorted. -/
def Lists (o : CompileOptions) (names : List Bytes) : Prop :=
  ∃ keys, o.features.Ranges keys ∧ names = sortNames keys

theorem lists_iff {o : CompileOptions} {names : List Bytes} :
    Lists o names ↔ names = o.features.names := by
  constructor
  · rintro ⟨keys, hkeys, rfl⟩
    exact hkeys.sortNames_eq
  · rintro rfl
    exact ⟨_, ranges_names _, (ranges_names _).sortNames_eq.symm⟩

/-- On each name, and on the test mode, the last change that says something
about it counts, and otherwise the origin. There is one answer to the question
for all features: in order, and none missing. -/
structure LastCounts (origin : Origin) (changes : List Change)
    (o : CompileOptions) : Prop where
  test_eq : o.test = (changes.filterMap Change.test?).getLast?.getD origin.test
  hasFeature_iff : ∀ name, o.hasFeature name = true ↔
    (changes.filterMap (Change.feature? name)).getLast? = some true
      ∨ (changes.filterMap (Change.feature? name)).getLast? = none ∧
        name ∈ origin.names
  lists : ∃ names, (∀ names', Lists o names' ↔ names' = names)
    ∧ ListsExactly names fun name => o.hasFeature name = true

/-- Of several changes to one thing the last counts. -/
theorem lastCounts_foldl (origin : Origin) (changes : List Change) :
    LastCounts origin changes (changes.foldl Change.apply origin.options) where
  test_eq := by
    rw [Change.foldl_apply_eq_last CompileOptions.test Change.test?
      Change.test_apply, Origin.options_eq]
  hasFeature_iff := by
    intro name
    rw [Change.foldl_apply_eq_last (fun o => o.hasFeature name)
      (Change.feature? name)
      (Change.hasFeature_apply name), Origin.options_eq]
    cases (changes.filterMap (Change.feature? name)).getLast? with
    | none => simp [CompileOptions.hasFeature]
    | some value => simp
  lists := by
    refine ⟨_, fun _ => lists_iff, ?_⟩
    apply FeatureSet.listsExactly
    intro name
    simp [CompileOptions.hasFeature]

end Registers

open Registers

/-- Options derived from one another do not get in each other's way. A program
runs if each of its steps starts from an earlier register. A register has one
lineage. It holds the options to which the changes of the lineage lead, of which
the last on each name counts, and so it stays, whatever steps follow and
wherever they start. -/
theorem derivations_isolated (program : List Instruction) :
    (WellFormed program ↔ ∃ s, Runs {} program s) ∧
    ∀ s, Runs {} program s → ∀ r < program.length, ∃ o origin changes,
      s.registers[r]? = some o
      ∧ (∀ origin' changes', Lineage program r origin' changes' ↔
        origin' = origin ∧ changes' = changes)
      ∧ ∀ more s', Runs s more s' →
        s'.registers[r]? = some o
        ∧ o.options s'.heap = changes.foldl Change.apply origin.options
        ∧ LastCounts origin changes (o.options s'.heap) := by
  refine ⟨wellFormed_iff_exists_runs, fun s hruns r hr => ?_⟩
  have htracks := tracks_of_runs hruns
  have ho := List.getElem?_eq_getElem
    (htracks.length_eq.symm ▸ hr : r < s.registers.length)
  obtain ⟨origin, changes, hlineage, hoptions⟩ := htracks.lineage ho
  refine ⟨_, origin, changes, ho, fun origin' changes' => ?_,
    fun more s' hmore => ?_⟩
  · constructor
    · exact hlineage.unique
    · rintro ⟨rfl, rfl⟩
      exact hlineage
  · obtain ⟨-, hheap, rest, hrest⟩ := htracks.runs hmore
    have hvalid := htracks.valid _ (List.mem_of_getElem? ho)
    have hstays := (hvalid.options_mono hheap).trans hoptions
    refine ⟨?_, hstays, hstays ▸ lastCounts_foldl origin changes⟩
    rw [← hrest, List.getElem?_append_left (List.getElem?_eq_some_iff.mp ho).1,
      ho]

namespace Branching

/-- The second register shares the set of the first, the fifth that of the
fourth. -/
def program : List Instruction :=
  [.construct (.withFeatures [utf8 "json", utf8 "json"]),
    .derive 0 (.setTest true), .derive 1 (.disable (utf8 "json")),
    .derive 1 (.enable (utf8 "yaml")), .derive 3 (.enable (utf8 "json")),
    .derive 4 (.disable (utf8 "yaml"))]

/-- Further steps on the register that all others come from. -/
def more : List Instruction :=
  [.derive 0 (.disable (utf8 "json")), .derive 0 (.enable (utf8 "toml"))]

theorem lineage_four :
    Lineage program 4 (.withFeatures [utf8 "json", utf8 "json"])
    [.setTest true, .enable (utf8 "yaml"), .enable (utf8 "json")] := by
  have hbase : Lineage program 0 (.withFeatures [utf8 "json", utf8 "json"])
      [] := .construct rfl
  have htest : Lineage program 1 _ [.setTest true] := .derive rfl hbase
  have hyaml : Lineage program 3 _ [.setTest true, .enable (utf8 "yaml")] :=
    .derive rfl htest
  exact .derive rfl hyaml

end Branching

open Branching

/-- Changes to the options that lend their set, and to those that borrow it, are
not seen. -/
theorem derivations_isolated_shared :
    WellFormed program ∧ ∃ s s' o, Runs {} program s ∧ Runs s more s'
      ∧ s.registers[4]? = some o ∧ s'.registers[4]? = some o
      ∧ (o.options s'.heap).test = true
      ∧ Lists (o.options s'.heap) [utf8 "json", utf8 "yaml"] := by
  obtain ⟨hiff, hall⟩ := derivations_isolated program
  have hprogram : WellFormed program := by
    unfold WellFormed
    decide
  obtain ⟨s, hruns⟩ := hiff.mp hprogram
  obtain ⟨base, _, _, hbase, -, hbaseStays⟩ := hall s hruns 0 (by decide)
  obtain ⟨o, origin, changes, ho, hlineage, hstays⟩ :=
    hall s hruns 4 (by decide)
  have hfirst :=
    Step.derive (.disable (utf8 "json")) hbase (FeatureSet.ranges_names _)
  have hmiddle := Runs.nil.snoc hfirst
  have hsecond := Step.derive (.enable (utf8 "toml")) (hbaseStays _ _ hmiddle).1
    (FeatureSet.ranges_names _)
  have hmore : Runs s more _ := hmiddle.snoc hsecond
  obtain ⟨rfl, rfl⟩ := (hlineage _ _).mp lineage_four
  obtain ⟨ho', hoptions, hcounts⟩ := hstays more _ hmore
  refine ⟨hprogram, s, _, o, hruns, hmore, ho, ho', hcounts.test_eq, ?_⟩
  rw [lists_iff, hoptions]
  decide +kernel

end FeatureGate
