import Mathlib
import FeatureGate.Proofs.SharedStore

/-!
What clients of a shared store see. The published snapshots are those of a store
that takes the same swaps one after another; every swap that returns has
published one of them; and no client sees versions go back.
-/

namespace FeatureGate

namespace Store

/-- The snapshots a store goes through while options are swapped in one after
another. -/
def history (store : Store) : List CompileOptions → List Snapshot
  | [] => [store.load]
  | options :: more => store.load :: (store.swap options).history more

theorem history_append_singleton (store : Store) (before : List CompileOptions)
    (options : CompileOptions) :
    store.history (before ++ [options])
      = store.history before ++
        [((before.foldl swap store).swap options).load] := by
  induction before generalizing store with
  | nil => rfl
  | cons first before ih =>
      rw [List.cons_append, history, ih, history, List.cons_append,
        List.foldl_cons]

@[simp] theorem load_swap (store : Store) (options : CompileOptions) :
    (store.swap options).load = store.load.successor options :=
  rfl

/-- A swap counts as one version, also where the count comes around. -/
theorem version_swap_add (store : Store) (options : CompileOptions) (n : Nat) :
    (store.swap options).load.version + UInt64.ofNat n
      = store.load.version + UInt64.ofNat (n + 1) := by
  rw [UInt64.ofNat_add, UInt64.add_comm (UInt64.ofNat n), ← UInt64.add_assoc]
  rfl

theorem version_foldl_swap (store : Store) (swapped : List CompileOptions) :
    (swapped.foldl swap store).load.version
      = store.load.version + UInt64.ofNat swapped.length := by
  induction swapped generalizing store with
  | nil => exact (UInt64.add_zero _).symm
  | cons options swapped ih =>
      rw [List.foldl_cons, ih, List.length_cons, version_swap_add]

/-- The versions of the history follow one another. -/
theorem map_version_history (store : Store) (swapped : List CompileOptions) :
    (store.history swapped).map Snapshot.version
      = (List.range (swapped.length + 1)).map fun i =>
        store.load.version + UInt64.ofNat i := by
  induction swapped generalizing store with
  | nil => exact congrArg (· :: []) (UInt64.add_zero _).symm
  | cons options swapped ih =>
      rw [history, List.map_cons, ih, List.length_cons,
        List.range_succ_eq_map (n := swapped.length + 1), List.map_cons,
        List.map_map]
      congr 1
      · exact (UInt64.add_zero _).symm
      · exact List.map_congr_left fun i _ => version_swap_add store options i

/-- Below the last version, versions are counted as numbers are. -/
theorem toNat_version_add {version : UInt64} {n : Nat}
    (h : version.toNat + n < 2 ^ 64) :
    (version + UInt64.ofNat n).toNat = version.toNat + n := by
  rw [UInt64.toNat_add, UInt64.toNat_ofNat', Nat.add_mod_mod,
    Nat.mod_eq_of_lt h]

end Store

namespace SharedStore

namespace Action

def published? : Action → Option Ref
  | .publish next => some next
  | _ => none

def result? : Action → Option Ref
  | .load seen => some seen
  | .ret result => some result
  | _ => none

def returned? : Action → Option Ref
  | .ret result => some result
  | _ => none

/-- The actions within a swap, between its call and its return. -/
def isInner : Action → Bool
  | .read | .make | .publish _ | .retry => true
  | .load _ | .call _ | .ret _ => false

end Action

/-- The published snapshots, beginning with the first one of the store. -/
def published (schedule : List Event) : List Ref :=
  0 :: schedule.filterMap fun event => event.action.published?

def swaps (schedule : List Event) : Nat :=
  schedule.countP fun event => event.action.published?.isSome

/-- What the client's own actions give. -/
def ownOf (client : Nat) (f : Action → Option Ref) (schedule : List Event) :
    List Ref :=
  schedule.filterMap fun event =>
    if event.client = client then f event.action else none

def results (client : Nat) : List Event → List Ref :=
  ownOf client Action.result?

/-- The schedule leaves the client in a swap of the options, in which it has
published so far the given snapshots. -/
def InSwap (schedule : List Event) (client : Nat) (options : CompileOptions)
    (refs : List Ref) : Prop :=
  ∃ before after, schedule = before ++ ⟨client, .call options⟩ :: after
    ∧ (∀ event ∈ after, event.client = client → event.action.isInner = true)
    ∧ ownOf client Action.published? after = refs

theorem ownOf_append_singleton (client : Nat) (f : Action → Option Ref)
    (schedule : List Event) (event : Event) :
    ownOf client f (schedule ++ [event]) = ownOf client f schedule
      ++ if event.client = client then (f event.action).toList else [] := by
  unfold ownOf
  rw [List.filterMap_append]
  congr 1
  by_cases hclient : event.client = client
  · cases hf : f event.action <;> simp [hclient, hf]
  · simp [hclient]

theorem published_append_singleton (schedule : List Event) (event : Event) :
    published (schedule ++ [event]) = published schedule ++
      event.action.published?.toList := by
  unfold published
  rw [List.filterMap_append, List.cons_append]
  cases hpublished : event.action.published? <;> simp [hpublished]

theorem swaps_append_singleton (schedule : List Event) (event : Event) :
    swaps (schedule ++ [event]) =
      swaps schedule + event.action.published?.toList.length := by
  unfold swaps
  rw [List.countP_append]
  cases hpublished : event.action.published? <;> simp [hpublished]

section Run

variable {o : CompileOptions} {schedule : List Event} {s : State}

theorem map_eq_map_some_of_imp {α β : Type} {f g : α → Option β}
    (himp : ∀ {a b}, f a = some b → g a = some b) {as : List α} {bs : List β}
    (h : as.map f = bs.map some) : as.map g = bs.map some := by
  induction as generalizing bs with
  | nil => exact h
  | cons a as ih =>
      cases bs with
      | nil => simp at h
      | cons b bs =>
          obtain ⟨hfirst, hrest⟩ := List.cons.inj h
          rw [List.map_cons, List.map_cons, himp hfirst, ih hrest]

theorem Step.current_eq {s' : State} {client : Nat} {action : Action}
    (h : Step s client action s') (hnone : action.published? = none) :
    s'.current = s.current := by
  cases h with
  | publish _ => simp [Action.published?] at hnone
  | load _ | call _ _ | read _ | make _ _ | retry _ _ | ret _ => rfl

/-- The published snapshots are the history of a store that takes the swaps one
after another. -/
theorem published_of_run (hrun : run? (.initial o) schedule = some s) :
    ∃ swapped : List CompileOptions, swapped.length = swaps schedule
      ∧ (published schedule).map (s.heap[·]?)
        = ((Store.new o).history swapped).map some
      ∧ s.heap[s.current]? =
        some (swapped.foldl Store.swap (Store.new o)).load := by
  refine run?_induction (P := fun schedule s =>
    ∃ swapped : List CompileOptions, swapped.length = swaps schedule
      ∧ (published schedule).map (s.heap[·]?)
        = ((Store.new o).history swapped).map some
      ∧ s.heap[s.current]? = some (swapped.foldl Store.swap (Store.new o)).load)
    ?_ ?_ hrun
  · exact ⟨[], rfl, rfl, rfl⟩
  · intro schedule s s' client action hrun ih hstep
    obtain ⟨swapped, hlength, hpublished, hcurrent⟩ := ih
    have hkept :=
      map_eq_map_some_of_imp (getElem?_mono hstep.heap_grows) hpublished
    rw [published_append_singleton, swaps_append_singleton, List.map_append]
    cases hnext : action.published? with
    | none =>
        refine ⟨swapped, hlength, by simpa using hkept, ?_⟩
        rw [hstep.current_eq hnext]
        exact getElem?_mono hstep.heap_grows hcurrent
    | some next =>
        cases hstep with
        | @publish options fresh hphase =>
            -- The loaded snapshot is still the current one, so the new one
            -- comes after all others.
            obtain rfl := Option.some.inj hnext
            obtain ⟨snapshot, hold, hfresh⟩ :=
              hphase ▸ (valid_of_run hrun).clients client
            obtain rfl := Option.some.inj (hold.symm.trans hcurrent)
            refine ⟨swapped ++ [options], by simp [hlength], ?_, ?_⟩
            · rw [Store.history_append_singleton, List.map_append, hkept]
              simpa using hfresh
            · rw [List.foldl_append]
              exact hfresh
        | load _ | call _ _ | read _ | make _ _ | retry _ _ | ret _ =>
            simp [Action.published?] at hnext

/-- The versions that a new store goes through, as numbers. -/
theorem toNat_version_new {n : Nat} (h : n < 2 ^ 64 - 1) :
    ((Store.new o).load.version + UInt64.ofNat n).toNat = 1 + n := by
  apply Store.toNat_version_add
  change 1 + n < 2 ^ 64
  omega

/-- The current version counts the successful swaps. -/
theorem version?_current_of_run (hrun : run? (.initial o) schedule = some s)
    (hcount : swaps schedule < 2 ^ 64 - 1) :
    s.version? s.current = some (1 + swaps schedule) := by
  obtain ⟨swapped, hlength, -, hcurrent⟩ := published_of_run hrun
  rw [State.version?, hcurrent, Option.map_some, Store.version_foldl_swap,
    hlength, toNat_version_new hcount]

/-- The versions one, two, three and so on are published in this order. -/
theorem map_version?_published (hrun : run? (.initial o) schedule = some s)
    (hcount : swaps schedule < 2 ^ 64 - 1) :
    (published schedule).map s.version? =
      (List.range' 1 (swaps schedule + 1)).map some := by
  obtain ⟨swapped, hlength, hpublished, -⟩ := published_of_run hrun
  have hversions := congrArg
    (List.map (Option.map fun snapshot => snapshot.version.toNat)) hpublished
  rw [List.map_map, List.map_map] at hversions
  calc (published schedule).map s.version?
      = ((Store.new o).history swapped).map
          (some ∘ UInt64.toNat ∘ Snapshot.version) := hversions
    _ = (((Store.new o).history swapped).map Snapshot.version).map
          (some ∘ UInt64.toNat) := by
        rw [List.map_map]
        rfl
    _ = (List.range (swaps schedule + 1)).map (some ∘ (1 + ·)) := by
        rw [Store.map_version_history, hlength, List.map_map]
        refine List.map_congr_left fun i hi =>
          congrArg some (toNat_version_new ?_)
        have := List.mem_range.mp hi
        omega
    _ = (List.range' 1 (swaps schedule + 1)).map some := by
        rw [List.range'_eq_map_range, List.map_map]

theorem nodup_published (hrun : run? (.initial o) schedule = some s)
    (hcount : swaps schedule < 2 ^ 64 - 1) : (published schedule).Nodup := by
  apply List.Nodup.of_map s.version?
  rw [map_version?_published hrun hcount]
  exact List.Nodup.map (Option.some_injective Nat) List.nodup_range'

theorem inSwap_call (schedule : List Event) (client : Nat)
    (options : CompileOptions) :
    InSwap (schedule ++ [⟨client, .call options⟩]) client options [] :=
  ⟨schedule, [], rfl, by simp, rfl⟩

theorem InSwap.append {client : Nat} {options : CompileOptions}
    {refs : List Ref} (h : InSwap schedule client options refs) {event : Event}
    (hinner : event.client = client → event.action.isInner = true) :
    InSwap (schedule ++ [event]) client options
      (refs ++ if event.client = client then event.action.published?.toList
        else []) := by
  obtain ⟨before, after, rfl, hafter, rfl⟩ := h
  refine ⟨before, after ++ [event],
    by simp, ?_, ownOf_append_singleton client _ after event⟩
  intro other hother
  rcases List.mem_append.mp hother with hother | hother
  · exact hafter other hother
  · rw [List.mem_singleton.mp hother]
    exact hinner

theorem InSwap.append_other {client : Nat} {options : CompileOptions}
    {refs : List Ref} (h : InSwap schedule client options refs) {event : Event}
    (hne : event.client ≠ client) :
    InSwap (schedule ++ [event]) client options refs := by
  simpa [hne] using h.append fun heq => absurd heq hne

theorem InSwap.append_inner {client : Nat} {options : CompileOptions}
    {refs : List Ref} (h : InSwap schedule client options refs)
    {action : Action} (hinner : action.isInner = true) :
    InSwap (schedule ++ [⟨client, action⟩]) client options
      (refs ++ action.published?.toList) := by
  have happend : InSwap (schedule ++ [⟨client, action⟩]) client options
      (refs ++ if client = client then action.published?.toList else []) :=
    h.append fun _ => hinner
  rwa [if_pos rfl] at happend

/-- What the schedule tells about a client in a phase. -/
def Phase.Tracks (schedule : List Event) (client : Nat)
    (s : State) : Phase → Prop
  | .idle => True
  | .called options | .loaded options _ | .made options _ _ =>
      InSwap schedule client options []
  | .placed next => ∃ options, InSwap schedule client options [next]
      ∧ s.options? next = some options

theorem Phase.Tracks.append_other {client : Nat} {phase : Phase} {s' : State}
    (h : phase.Tracks schedule client s) (hgrows : s.heap <+: s'.heap)
    {event : Event} (hne : event.client ≠ client) :
    phase.Tracks (schedule ++ [event]) client s' := by
  cases phase with
  | idle => trivial
  | called options => exact InSwap.append_other h hne
  | loaded options old => exact InSwap.append_other h hne
  | made options old next => exact InSwap.append_other h hne
  | placed next =>
      obtain ⟨options, hswap, hoptions⟩ := h
      exact ⟨options, hswap.append_other hne, map_getElem?_mono hgrows hoptions⟩

theorem Step.clients_of_ne {s' : State} {actor client : Nat} {action : Action}
    (h : Step s actor action s') (hne : actor ≠ client) :
    s'.clients client = s.clients client := by
  cases h with
  | load _ => rfl
  | call _ _ | read _ | make _ _ | publish _ | retry _ _ | ret _ =>
      exact State.clients_enter_of_ne _ (Ne.symm hne) _

/-- A client's own step takes it from one phase of a swap to the next. -/
theorem Phase.Tracks.step {s' : State} {client : Nat} {action : Action}
    (h : (s.clients client).Tracks schedule client s)
    (hvalid : (s.clients client).Valid s.heap)
    (hstep : Step s client action s') :
    (s'.clients client).Tracks (schedule ++ [⟨client, action⟩]) client s' := by
  cases hstep with
  | load hphase =>
      rw [hphase]
      trivial
  | call options hphase =>
      rw [State.clients_enter_self]
      exact inSwap_call schedule client options
  | read hphase =>
      rw [hphase] at h
      rw [State.clients_enter_self]
      exact InSwap.append_inner h rfl
  | make hphase hold =>
      rw [hphase] at h
      rw [State.clients_enter_self]
      exact InSwap.append_inner h rfl
  | @publish options next hphase =>
      rw [hphase] at h hvalid
      rw [State.clients_enter_self]
      obtain ⟨snapshot, -, hnext⟩ := hvalid
      refine ⟨options, ?_, ?_⟩
      · exact InSwap.append_inner h rfl
      · simp [State.options?, hnext, Snapshot.successor]
  | retry hphase hne =>
      rw [hphase] at h
      rw [State.clients_enter_self]
      exact InSwap.append_inner h rfl
  | ret hphase =>
      rw [State.clients_enter_self]
      trivial

/-- At any time the phase of a client tells what it has done in its swap. -/
theorem tracks_of_run (hrun : run? (.initial o) schedule = some s)
    (client : Nat) :
    (s.clients client).Tracks schedule client s := by
  refine run?_induction
    (P := fun schedule s => (s.clients client).Tracks schedule client s)
    ?_ ?_ hrun
  · trivial
  · intro schedule s s' actor action hrun ih hstep
    by_cases hactor : actor = client
    · subst hactor
      exact ih.step ((valid_of_run hrun).clients actor) hstep
    · rw [hstep.clients_of_ne hactor]
      exact ih.append_other hstep.heap_grows hactor

/-- The snapshot that is in place but not yet returned. -/
def Phase.pending : Phase → List Ref
  | .placed next => [next]
  | _ => []

/-- A client's swaps return what it has published, in order and each once. -/
theorem published_eq_returned_of_run
    (hrun : run? (.initial o) schedule = some s) (client : Nat) :
    ownOf client Action.published? schedule
      = ownOf client Action.returned? schedule ++
        (s.clients client).pending := by
  refine run?_induction (P := fun schedule s =>
    ownOf client Action.published? schedule
      = ownOf client Action.returned? schedule ++ (s.clients client).pending)
        rfl ?_ hrun
  intro schedule s s' actor action _ ih hstep
  rw [ownOf_append_singleton, ownOf_append_singleton, ih]
  by_cases hactor : actor = client
  · subst hactor
    cases hstep with
    | load h | call _ h | read h | make h _ | publish h | retry h _ | ret h =>
        simp [h, Phase.pending, Action.published?, Action.returned?]
  · simp [hactor, hstep.clients_of_ne hactor]

/-- A swap that returns has published the snapshot it returns, and no other. -/
theorem inSwap_of_ret {before after : List Event} {client : Nat} {result : Ref}
    (hrun : run? (.initial o) (before ++ ⟨client, .ret result⟩ :: after) =
      some s) :
    ∃ options, InSwap before client options [result] ∧
      s.options? result = some options := by
  obtain ⟨s₁, s₂, hbefore, hstep, hgrows⟩ := exists_step_of_run_append hrun
  have htracks := tracks_of_run hbefore client
  cases hstep with
  | ret hphase =>
      rw [hphase] at htracks
      obtain ⟨options, hswap, hoptions⟩ := htracks
      exact ⟨options, hswap, map_getElem?_mono hgrows hoptions⟩

/-- What is published is published by a swap of these options that has published
nothing yet. -/
theorem inSwap_of_publish {before after : List Event} {client : Nat}
    {next : Ref}
    (hrun : run? (.initial o) (before ++ ⟨client, .publish next⟩ :: after) =
      some s) :
    ∃ options, InSwap before client options [] ∧
      s.options? next = some options := by
  obtain ⟨s₁, s₂, hbefore, hstep, hgrows⟩ := exists_step_of_run_append hrun
  have htracks := tracks_of_run hbefore client
  have hvalid := (valid_of_run hbefore).clients client
  cases hstep with
  | @publish options _ hphase =>
      rw [hphase] at htracks hvalid
      obtain ⟨snapshot, -, hnext⟩ := hvalid
      refine ⟨options, htracks, map_getElem?_mono hgrows ?_⟩
      simp [hnext, Snapshot.successor]

/-- The newest snapshot a client may know of: the one it has put in place and
not yet returned, or else the current one. -/
def State.newest (s : State) (client : Nat) : Ref :=
  match s.clients client with
  | .placed next => next
  | _ => s.current

/-- The versions of the snapshots do not go back, nor beyond the given one. -/
def State.Ascends (s : State) (refs : List Ref) (top : Nat) : Prop :=
  ∃ versions : List Nat, refs.map s.version? = versions.map some
    ∧ versions.Pairwise (· ≤ ·) ∧ ∀ version ∈ versions, version ≤ top

theorem newest_of_placed {client : Nat} {next : Ref}
    (h : s.clients client = .placed next) :
    s.newest client = next := by
  simp [State.newest, h]

theorem newest_of_not_placed {client : Nat}
    (h : ∀ next, s.clients client ≠ .placed next) :
    s.newest client = s.current := by
  unfold State.newest
  split
  · rename_i next hphase
    exact absurd hphase (h next)
  · rfl

/-- What a client can be handed next is the current snapshot or stays what it
was. -/
theorem Step.newest_cases {s' : State} {actor : Nat} {action : Action}
    (h : Step s actor action s') (client : Nat) :
    s'.newest client = s'.current ∨ s'.newest client = s.newest client := by
  by_cases hplaced : ∃ next, s'.clients client = .placed next
  · obtain ⟨next, hplaced⟩ := hplaced
    rw [newest_of_placed hplaced]
    by_cases hactor : actor = client
    · subst hactor
      cases h with
      | load hphase => simp [hphase] at hplaced
      | publish _ =>
          left
          simpa using hplaced.symm
      | call _ _ | read _ | make _ _ | retry _ _ | ret _ => simp at hplaced
    · rw [h.clients_of_ne hactor] at hplaced
      exact Or.inr (newest_of_placed hplaced).symm
  · exact Or.inl (newest_of_not_placed (not_exists.mp hplaced))

/-- A client is handed the newest snapshot it can know of. -/
theorem Step.result_eq {s' : State} {client : Nat} {action : Action}
    (h : Step s client action s') {ref : Ref}
    (href : action.result? = some ref) :
    ref = s.newest client := by
  cases h with
  | load hphase =>
      rw [newest_of_not_placed (by simp [hphase])]
      exact (Option.some.inj href).symm
  | ret hphase =>
      rw [newest_of_placed hphase]
      exact (Option.some.inj href).symm
  | call _ _ | read _ | make _ _ | publish _ | retry _ _ =>
      simp [Action.result?] at href

theorem State.Ascends.mono {s' : State} {refs : List Ref} {top top' : Nat}
    (h : s.Ascends refs top) (hgrows : s.heap <+: s'.heap) (hle : top ≤ top') :
    s'.Ascends refs top' := by
  obtain ⟨versions, hversions, hascending, hbound⟩ := h
  exact ⟨versions, map_eq_map_some_of_imp (map_getElem?_mono hgrows) hversions,
    hascending, fun version hmem => (hbound version hmem).trans hle⟩

theorem State.Ascends.snoc {refs : List Ref} {ref : Ref} {top : Nat}
    (h : s.Ascends refs top) (href : s.version? ref = some top) :
    s.Ascends (refs ++ [ref]) top := by
  obtain ⟨versions, hversions, hascending, hbound⟩ := h
  refine ⟨versions ++ [top], ?_, ?_, ?_⟩
  · rw [List.map_append, hversions, List.map_append, List.map_singleton, href,
      List.map_singleton]
  · rw [List.pairwise_append]
    refine ⟨hascending, List.pairwise_singleton _ _,
      fun version hmem version' hmem' => ?_⟩
    rw [List.mem_singleton.mp hmem']
    exact hbound version hmem
  · intro version hmem
    rcases List.mem_append.mp hmem with hmem | hmem
    · exact hbound version hmem
    · exact (List.mem_singleton.mp hmem).le

/-- A client is handed snapshots no older than those before, and none newer than
the newest one it may know of. -/
theorem ascends_of_run (hrun : run? (.initial o) schedule = some s)
    (hcount : swaps schedule < 2 ^ 64 - 1) (client : Nat) :
    ∃ top, s.Ascends (results client schedule) top
      ∧ s.version? (s.newest client) = some top
      ∧ top ≤ 1 + swaps schedule := by
  refine run?_induction (P := fun schedule s => swaps schedule < 2 ^ 64 - 1 →
    ∃ top, s.Ascends (results client schedule) top
      ∧ s.version? (s.newest client) = some top
      ∧ top ≤ 1 + swaps schedule) ?_ ?_ hrun hcount
  · intro _
    exact ⟨1, ⟨[], rfl, .nil, by simp⟩, rfl, by simp [swaps]⟩
  · intro schedule s s' actor action hrun ih hstep hcount
    have hswaps := swaps_append_singleton schedule ⟨actor, action⟩
    obtain ⟨top, hascends, hnewest, htop⟩ := ih (by omega)
    -- What a client is handed is the newest snapshot it may know of at that
    -- moment.
    have hresults :
        s.Ascends (results client (schedule ++ [⟨actor, action⟩])) top := by
      unfold results at hascends ⊢
      rw [ownOf_append_singleton]
      by_cases hactor : actor = client
      · subst hactor
        cases hresult : action.result? with
        | none => simpa using hascends
        | some ref =>
            obtain rfl := hstep.result_eq hresult
            simpa using hascends.snoc hnewest
      · simpa [hactor] using hascends
    rcases hstep.newest_cases client with hcurrent | hsame
    · refine ⟨1 + swaps (schedule ++ [⟨actor, action⟩]), ?_, ?_, Nat.le_refl _⟩
      · exact hresults.mono hstep.heap_grows (by omega)
      · rw [hcurrent]
        exact version?_current_of_run (run?_append_step hrun hstep) hcount
    · refine ⟨top, hresults.mono hstep.heap_grows (Nat.le_refl _), ?_, by omega⟩
      rw [hsame]
      exact map_getElem?_mono hstep.heap_grows hnewest

/-- No client is ever stuck. -/
theorem exists_step_of_run (hrun : run? (.initial o) schedule = some s)
    (client : Nat) :
    ∃ action s', step? s ⟨client, action⟩ = some s' := by
  have hvalid := (valid_of_run hrun).clients client
  cases hphase : s.clients client with
  | idle => exact ⟨_, _, step?_eq_some_iff.mpr (.load hphase)⟩
  | called options => exact ⟨_, _, step?_eq_some_iff.mpr (.read hphase)⟩
  | loaded options old =>
      rw [hphase] at hvalid
      obtain ⟨snapshot, hold⟩ := hvalid
      exact ⟨_, _, step?_eq_some_iff.mpr (.make hphase hold)⟩
  | made options old next =>
      by_cases hold : s.current = old
      · subst hold
        exact ⟨_, _, step?_eq_some_iff.mpr (.publish hphase)⟩
      · exact ⟨_, _, step?_eq_some_iff.mpr (.retry hphase hold)⟩
  | placed next => exact ⟨_, _, step?_eq_some_iff.mpr (.ret hphase)⟩

end Run

end SharedStore

open SharedStore

/-- Swaps are neither lost nor repeated nor reordered. In every run with fewer
than `2 ^ 64 - 1` successful swaps, the published snapshots have the versions
one, two, three and so on, and are those of a store that takes the same swaps
one after another. A swap that returns has published exactly the snapshot it
returns, with its options. Versions that a client sees do not go back, and
snapshots do not change. -/
theorem swaps_publish_in_order (o : CompileOptions) {schedule : List Event}
    {s : State} (hrun : run? (.initial o) schedule = some s)
    (hcount : swaps schedule < 2 ^ 64 - 1) :
    (published schedule).map s.version? =
      (List.range' 1 (swaps schedule + 1)).map some ∧
    (published schedule).Nodup ∧
    (∃ swapped : List CompileOptions, swapped.length = swaps schedule
      ∧ (published schedule).map (s.heap[·]?) =
        ((Store.new o).history swapped).map some
      ∧ s.heap[s.current]? =
        some (swapped.foldl Store.swap (Store.new o)).load) ∧
    (∀ before client result after,
      schedule = before ++ ⟨client, .ret result⟩ :: after →
      ∃ options, InSwap before client options [result] ∧
        s.options? result = some options) ∧
    (∀ before client next after,
      schedule = before ++ ⟨client, .publish next⟩ :: after →
      ∃ options, InSwap before client options [] ∧
        s.options? next = some options) ∧
    (∀ client, ownOf client Action.published? schedule
      = ownOf client Action.returned? schedule ++ (s.clients client).pending) ∧
    s.version? s.current = some (1 + swaps schedule) ∧
    (∀ client, ∃ versions : List Nat,
      (results client schedule).map s.version? = versions.map some
        ∧ versions.Pairwise (· ≤ ·)) ∧
    (∀ more s', run? s more = some s' → ∀ (ref : Ref) (snapshot : Snapshot),
      s.heap[ref]? = some snapshot → s'.heap[ref]? = some snapshot) ∧
    ∀ client, ∃ action s', step? s ⟨client, action⟩ = some s' := by
  refine ⟨map_version?_published hrun hcount, nodup_published hrun hcount,
    published_of_run hrun, ?_, ?_, published_eq_returned_of_run hrun,
    version?_current_of_run hrun hcount, ?_, ?_, exists_step_of_run hrun⟩
  · rintro before client result after rfl
    exact inSwap_of_ret hrun
  · rintro before client next after rfl
    exact inSwap_of_publish hrun
  · intro client
    obtain ⟨top, ⟨versions, hversions, hascending, -⟩, -, -⟩ :=
      ascends_of_run hrun hcount client
    exact ⟨versions, hversions, hascending⟩
  · intro more s' hmore ref snapshot href
    exact getElem?_mono (heap_grows_of_run hmore) href

/-- Two clients load the same snapshot; the second is first to publish, and the
first begins again. -/
def racingSchedule : List Event :=
  [⟨0, .call (.withFeatures [utf8 "a"])⟩, ⟨1, .call (.withFeatures [utf8 "b"])⟩,
    ⟨0, .read⟩, ⟨1, .read⟩, ⟨0, .make⟩, ⟨1, .make⟩, ⟨1, .publish 2⟩,
    ⟨0, .retry⟩, ⟨1, .ret 2⟩, ⟨0, .read⟩, ⟨0, .make⟩, ⟨0, .publish 3⟩,
    ⟨1, .load 3⟩, ⟨0, .ret 3⟩]

theorem swaps_publish_in_order_race :
    ∃ s, run? (.initial {}) racingSchedule = some s
      ∧ swaps racingSchedule < 2 ^ 64 - 1
      ∧ published racingSchedule = [0, 2, 3]
      ∧ (published racingSchedule).map s.version? = [some 1, some 2, some 3]
      ∧ s.version? s.current = some 3
      ∧ (∃ options, InSwap racingSchedule.dropLast 0 options [3] ∧
        s.options? 3 = some options)
      ∧ ∃ versions : List Nat,
        (results 1 racingSchedule).map s.version? = versions.map some
        ∧ versions.Pairwise (· ≤ ·) := by
  obtain ⟨s, hrun⟩ := Option.isSome_iff_exists.mp
    (show (run? (.initial {}) racingSchedule).isSome = true by decide +kernel)
  have hswaps : swaps racingSchedule = 2 := by decide +kernel
  have hcount : swaps racingSchedule < 2 ^ 64 - 1 := by omega
  obtain ⟨hversions, -, -, hret, -, -, hcurrent, hseen, -⟩ :=
    swaps_publish_in_order {} hrun hcount
  rw [hswaps] at hversions hcurrent
  refine ⟨s, hrun, hcount, by decide +kernel, hversions, hcurrent, ?_, hseen 1⟩
  exact hret racingSchedule.dropLast 0 3 [] (by decide +kernel)

end FeatureGate
