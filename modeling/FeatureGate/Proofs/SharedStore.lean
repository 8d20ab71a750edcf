import Mathlib
import FeatureGate.Store

/-!
A store that clients share. Any number of clients load the current snapshot, or
swap options in: a swap loads the current snapshot, makes a new one with the
next version, and puts it in place if the snapshot it has loaded is still the
current one; if not, it begins again. Snapshots are told apart by their identity
and not by what they hold. A schedule is the list of what the clients do, in any
order in which it can happen.
-/

namespace FeatureGate

namespace SharedStore

/-- The identity of a snapshot: its number among all that were ever made. -/
abbrev Ref := Nat

/-- How far a client has come with a swap. -/
inductive Phase where
  | idle
  | called (options : CompileOptions)
  | loaded (options : CompileOptions) (old : Ref)
  | made (options : CompileOptions) (old next : Ref)
  /-- The new snapshot is in place, and the swap has yet to return it. -/
  | placed (next : Ref)
deriving DecidableEq, Repr

/-- All snapshots ever made, the current one, and the clients. -/
structure State where
  heap : List Snapshot
  current : Ref
  clients : Nat → Phase

/-- What a client does next; `load` and `ret` tell which snapshot is handed
out. -/
inductive Action where
  | load (seen : Ref)
  | call (options : CompileOptions)
  | read
  | make
  /-- The comparison succeeds, and the new snapshot takes the place of the old
  one. -/
  | publish (next : Ref)
  /-- The comparison fails. -/
  | retry
  | ret (result : Ref)
deriving DecidableEq, Repr

structure Event where
  client : Nat
  action : Action
deriving DecidableEq, Repr

namespace State

def initial (options : CompileOptions) : State :=
  ⟨[(Store.new options).load], 0, fun _ => .idle⟩

/-- The state in which a client has come to a phase. -/
def enter (s : State) (client : Nat) (phase : Phase) : State :=
  { s with clients := Function.update s.clients client phase }

@[simp] theorem clients_enter_self (s : State) (client : Nat) (phase : Phase) :
    (s.enter client phase).clients client = phase := by
  simp [enter]

@[simp] theorem clients_enter_of_ne (s : State) {client other : Nat}
    (h : other ≠ client) (phase : Phase) :
    (s.enter client phase).clients other = s.clients other := by
  simp [enter, h]

@[simp] theorem heap_enter (s : State) (client : Nat) (phase : Phase) :
    (s.enter client phase).heap = s.heap :=
  rfl

@[simp] theorem current_enter (s : State) (client : Nat) (phase : Phase) :
    (s.enter client phase).current = s.current :=
  rfl

def allocate (s : State) (snapshot : Snapshot) : State :=
  { s with heap := s.heap ++ [snapshot] }

def version? (s : State) (ref : Ref) : Option Nat :=
  s.heap[ref]?.map fun snapshot => snapshot.version.toNat

def options? (s : State) (ref : Ref) : Option CompileOptions :=
  s.heap[ref]?.map Snapshot.options

end State

/-- The state after an event, if it can happen. -/
def step? (s : State) (event : Event) : Option State :=
  match event.action, s.clients event.client with
  | .load seen, .idle => if seen = s.current then some s else none
  | .call options, .idle => some (s.enter event.client (.called options))
  | .read, .called options =>
      some (s.enter event.client (.loaded options s.current))
  | .make, .loaded options old =>
      s.heap[old]?.map fun snapshot =>
        (s.allocate (snapshot.successor options)).enter event.client
          (.made options old s.heap.length)
  | .publish next, .made _ old fresh =>
      if s.current = old ∧ next = fresh then
        some ({ s with current := next }.enter event.client (.placed next))
      else none
  | .retry, .made options old _ =>
      if s.current = old then none
      else some (s.enter event.client (.called options))
  | .ret result, .placed next =>
      if result = next then some (s.enter event.client .idle) else none
  | _, _ => none

/-- The state after a list of events, if they can happen in this order. -/
def run? (s : State) (schedule : List Event) : Option State :=
  schedule.foldlM step? s

inductive Step (s : State) (client : Nat) : Action → State → Prop
  | load (h : s.clients client = .idle) : Step s client (.load s.current) s
  | call (options : CompileOptions) (h : s.clients client = .idle) :
      Step s client (.call options) (s.enter client (.called options))
  | read {options : CompileOptions} (h : s.clients client = .called options) :
      Step s client .read (s.enter client (.loaded options s.current))
  | make {options : CompileOptions} {old : Ref} {snapshot : Snapshot}
      (h : s.clients client = .loaded options old)
        (hold : s.heap[old]? = some snapshot) :
      Step s client .make
        ((s.allocate (snapshot.successor options)).enter client
        (.made options old s.heap.length))
  | publish {options : CompileOptions} {next : Ref}
      (h : s.clients client = .made options s.current next) :
      Step s client (.publish next)
        ({ s with current := next }.enter client (.placed next))
  | retry {options : CompileOptions} {old next : Ref}
      (h : s.clients client = .made options old next) (hne : s.current ≠ old) :
      Step s client .retry (s.enter client (.called options))
  | ret {next : Ref} (h : s.clients client = .placed next) :
      Step s client (.ret next) (s.enter client .idle)

/-- The steps are what a client can do. -/
theorem step?_eq_some_iff {s s' : State} {event : Event} :
    step? s event = some s' ↔ Step s event.client event.action s' := by
  obtain ⟨client, action⟩ := event
  constructor
  · intro h
    cases action with
    | load seen =>
        cases hphase : s.clients client with
        | idle =>
            simp only [step?, hphase, Option.ite_none_right_eq_some,
              Option.some.injEq] at h
            obtain ⟨rfl, rfl⟩ := h
            exact .load hphase
        | called _ | loaded _ _ | made _ _ _ | placed _ =>
            simp [step?, hphase] at h
    | call options =>
        cases hphase : s.clients client with
        | idle =>
            simp only [step?, hphase, Option.some.injEq] at h
            exact h ▸ .call options hphase
        | called _ | loaded _ _ | made _ _ _ | placed _ =>
            simp [step?, hphase] at h
    | read =>
        cases hphase : s.clients client with
        | called options =>
            simp only [step?, hphase, Option.some.injEq] at h
            exact h ▸ .read hphase
        | idle | loaded _ _ | made _ _ _ | placed _ => simp [step?, hphase] at h
    | make =>
        cases hphase : s.clients client with
        | loaded options old =>
            simp only [step?, hphase, Option.map_eq_some_iff] at h
            obtain ⟨snapshot, hold, rfl⟩ := h
            exact .make hphase hold
        | idle | called _ | made _ _ _ | placed _ => simp [step?, hphase] at h
    | publish next =>
        cases hphase : s.clients client with
        | made options old fresh =>
            simp only [step?, hphase, Option.ite_none_right_eq_some,
              Option.some.injEq] at h
            obtain ⟨⟨rfl, rfl⟩, rfl⟩ := h
            exact .publish hphase
        | idle | called _ | loaded _ _ | placed _ => simp [step?, hphase] at h
    | retry =>
        cases hphase : s.clients client with
        | made options old fresh =>
            simp only [step?, hphase, Option.ite_none_left_eq_some,
              Option.some.injEq] at h
            obtain ⟨hne, rfl⟩ := h
            exact .retry hphase hne
        | idle | called _ | loaded _ _ | placed _ => simp [step?, hphase] at h
    | ret result =>
        cases hphase : s.clients client with
        | placed next =>
            simp only [step?, hphase, Option.ite_none_right_eq_some,
              Option.some.injEq] at h
            obtain ⟨rfl, rfl⟩ := h
            exact .ret hphase
        | idle | called _ | loaded _ _ | made _ _ _ => simp [step?, hphase] at h
  · intro h
    cases h with
    | load h => simp [step?, h]
    | call options h => simp [step?, h]
    | read h => simp [step?, h]
    | make h hold => simp [step?, h, hold]
    | publish h => simp [step?, h]
    | retry h hne => simp [step?, h, hne]
    | ret h => simp [step?, h]

theorem run?_append (s : State) (schedule more : List Event) :
    run? s (schedule ++ more) = (run? s schedule).bind fun s' => run? s' more :=
  List.foldlM_append

theorem run?_append_step {s₀ s s' : State} {schedule : List Event}
    {client : Nat} {action : Action} (hrun : run? s₀ schedule = some s)
    (hstep : Step s client action s') :
    run? s₀ (schedule ++ [⟨client, action⟩]) = some s' := by
  have hevent : step? s ⟨client, action⟩ = some s' :=
    step?_eq_some_iff.mpr hstep
  rw [run?_append, hrun]
  simp [run?, hevent]

/-- A property of schedules and the states they lead to holds of every run if it
holds at the beginning and every step keeps it. -/
theorem run?_induction {P : List Event → State → Prop} {s₀ : State}
    (hinit : P [] s₀)
    (hstep : ∀ {schedule : List Event} {s s' : State} {client : Nat}
      {action : Action},
      run? s₀ schedule = some s → P schedule s → Step s client action s' →
        P (schedule ++ [⟨client, action⟩]) s')
    {schedule : List Event} {s : State} (hrun : run? s₀ schedule = some s) :
    P schedule s := by
  induction schedule using List.reverseRecOn generalizing s with
  | nil => exact Option.some.inj hrun ▸ hinit
  | append_singleton schedule event ih =>
      rw [run?_append] at hrun
      obtain ⟨s', hbefore, hlast⟩ := Option.bind_eq_some_iff.mp hrun
      obtain ⟨s'', hevent, hnil⟩ := Option.bind_eq_some_iff.mp hlast
      obtain rfl := Option.some.inj hnil
      exact hstep hbefore (ih hbefore) (step?_eq_some_iff.mp hevent)

theorem getElem?_mono {heap heap' : List Snapshot} (h : heap <+: heap')
    {ref : Ref} {snapshot : Snapshot} (href : heap[ref]? = some snapshot) :
    heap'[ref]? = some snapshot := by
  obtain ⟨rest, rfl⟩ := h
  rw [List.getElem?_append_left (List.getElem?_eq_some_iff.mp href).1, href]

theorem map_getElem?_mono {α : Type} {f : Snapshot → α}
    {heap heap' : List Snapshot} (h : heap <+: heap') {ref : Ref} {value : α}
    (href : heap[ref]?.map f = some value) :
    heap'[ref]?.map f = some value := by
  obtain ⟨snapshot, hsnapshot, rfl⟩ := Option.map_eq_some_iff.mp href
  rw [getElem?_mono h hsnapshot, Option.map_some]

/-- No snapshot is ever changed or taken away. -/
theorem Step.heap_grows {s s' : State} {client : Nat} {action : Action}
    (h : Step s client action s') : s.heap <+: s'.heap := by
  cases h with
  | make _ _ => exact List.prefix_append _ _
  | load _ | call _ _ | read _ | publish _ | retry _ _ | ret _ =>
      exact List.prefix_refl _

theorem heap_grows_of_run {s s' : State} {schedule : List Event}
    (hrun : run? s schedule = some s') : s.heap <+: s'.heap := by
  refine run?_induction (P := fun _ s' => s.heap <+: s'.heap)
    (List.prefix_refl _) ?_ hrun
  intro schedule s₁ s₂ client action _ hgrows hstep
  exact hgrows.trans hstep.heap_grows

theorem exists_step_of_run_append {s₀ s : State} {before after : List Event}
    {client : Nat} {action : Action}
    (hrun : run? s₀ (before ++ ⟨client, action⟩ :: after) = some s) :
    ∃ s₁ s₂, run? s₀ before = some s₁ ∧ Step s₁ client action s₂ ∧
      s₁.heap <+: s.heap := by
  rw [run?_append] at hrun
  obtain ⟨s₁, hbefore, hrest⟩ := Option.bind_eq_some_iff.mp hrun
  obtain ⟨s₂, hstep, -⟩ := Option.bind_eq_some_iff.mp hrest
  exact ⟨s₁, s₂, hbefore, step?_eq_some_iff.mp hstep, heap_grows_of_run hrest⟩

/-- The client's identities belong to snapshots, and the one it has made follows
the one it has loaded. -/
def Phase.Valid (heap : List Snapshot) : Phase → Prop
  | .idle | .called _ => True
  | .loaded _ old => ∃ snapshot, heap[old]? = some snapshot
  | .made options old next => ∃ snapshot, heap[old]? = some snapshot
      ∧ heap[next]? = some (snapshot.successor options)
  | .placed next => ∃ snapshot, heap[next]? = some snapshot

theorem Phase.Valid.mono {heap heap' : List Snapshot} {phase : Phase}
    (h : phase.Valid heap) (hgrows : heap <+: heap') : phase.Valid heap' := by
  cases phase with
  | idle => trivial
  | called options => trivial
  | loaded options old =>
      obtain ⟨snapshot, hold⟩ := h
      exact ⟨snapshot, getElem?_mono hgrows hold⟩
  | made options old next =>
      obtain ⟨snapshot, hold, hnext⟩ := h
      exact ⟨snapshot, getElem?_mono hgrows hold, getElem?_mono hgrows hnext⟩
  | placed next =>
      obtain ⟨snapshot, hnext⟩ := h
      exact ⟨snapshot, getElem?_mono hgrows hnext⟩

/-- Every identity in use belongs to a snapshot. -/
structure State.Valid (s : State) : Prop where
  current : ∃ snapshot, s.heap[s.current]? = some snapshot
  clients : ∀ client, (s.clients client).Valid s.heap

theorem State.Valid.enter {s : State} (h : s.Valid) {client : Nat}
    {phase : Phase} (hphase : phase.Valid s.heap) :
    (s.enter client phase).Valid where
  current := h.current
  clients := by
    intro other
    by_cases hother : other = client
    · rw [hother, State.clients_enter_self]
      exact hphase
    · rw [State.clients_enter_of_ne s hother]
      exact h.clients other

theorem State.Valid.allocate {s : State} (h : s.Valid) (snapshot : Snapshot) :
    (s.allocate snapshot).Valid where
  current := by
    obtain ⟨current, hcurrent⟩ := h.current
    exact ⟨current, getElem?_mono (List.prefix_append _ _) hcurrent⟩
  clients := fun client => (h.clients client).mono (List.prefix_append _ _)

/-- A step leaves no client with an identity that nothing has. -/
theorem State.Valid.step {s s' : State} {client : Nat} {action : Action}
    (h : s.Valid) (hstep : Step s client action s') : s'.Valid := by
  cases hstep with
  | load _ => exact h
  | call options _ => exact h.enter trivial
  | read _ => exact h.enter h.current
  | @make options old snapshot hphase hold =>
      refine (h.allocate _).enter ⟨snapshot, ?_, ?_⟩
      · exact getElem?_mono (List.prefix_append _ _) hold
      · simp [State.allocate]
  | @publish options next hphase =>
      have hmade := hphase ▸ h.clients client
      obtain ⟨snapshot, -, hnext⟩ := hmade
      have hmoved : { s with current := next : State }.Valid :=
        ⟨⟨_, hnext⟩, h.clients⟩
      exact hmoved.enter ⟨_, hnext⟩
  | retry _ _ => exact h.enter trivial
  | ret _ => exact h.enter trivial

/-- All identities that clients hold are those of snapshots. -/
theorem valid_of_run {o : CompileOptions} {schedule : List Event} {s : State}
    (hrun : run? (.initial o) schedule = some s) : s.Valid := by
  refine run?_induction (P := fun _ s => s.Valid) ?_ ?_ hrun
  · exact ⟨⟨_, rfl⟩, fun _ => trivial⟩
  · intro schedule s s' client action _ hvalid hstep
    exact hvalid.step hstep

end SharedStore

end FeatureGate
