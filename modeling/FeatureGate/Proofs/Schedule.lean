import Mathlib
import FeatureGate.Plan

/-!
Planning with concurrent tasks. Every item has a task of its own, which asks
whether planning has been cancelled and then writes the decision into its own
slot; at most `workers` tasks are active at a time, and cancellation may come at
any moment. A schedule is the list of what happens, in any order in which it can
happen.

A task is given its item and the index of its slot when it is made, and keeps
both. That the index is the task's own, and not one variable that the loop which
makes the tasks shares with all of them, is an assumption on how the loop is
run.
-/

namespace FeatureGate

namespace Schedule

inductive Phase where
  | waiting
  | started
  /-- Planning was not cancelled when the task asked. -/
  | cleared
  /-- Planning was cancelled when the task asked. -/
  | refused
  | written
  | done
  | failed
deriving DecidableEq, Repr

namespace Phase

def isActive : Phase → Bool
  | .started | .cleared | .refused | .written => true
  | .waiting | .done | .failed => false

def isFinished : Phase → Bool
  | .done | .failed => true
  | _ => false

/-- Whether planning was cancelled when the task asked, once it has asked. -/
def seen? : Phase → Option Bool
  | .waiting | .started => none
  | .cleared | .written | .done => some false
  | .refused | .failed => some true

def steps : Phase → Nat
  | .waiting => 0
  | .started => 1
  | .cleared | .refused => 2
  | .written | .failed => 3
  | .done => 4

end Phase

/-- A slot before anything is written into it. -/
def unset : Decision := ⟨⟨[], [], [], {}⟩, false, false, false⟩

/-- The task of an item, with its slot. -/
structure Task where
  item : Item
  phase : Phase := .waiting
  slot : Decision := unset
deriving DecidableEq, Repr

/-- All tasks, whether planning is cancelled, and the first failure. -/
structure State where
  tasks : List Task
  cancelled : Bool := false
  error : Option PlanError := none
deriving DecidableEq, Repr

/-- What a task does next; `check` tells what the task has seen. -/
inductive Action where
  | start
  | check (seen : Bool)
  | write
  | finish
deriving DecidableEq, Repr

/-- A step of the task at an index, or the cancellation from outside. -/
inductive Event where
  | act (index : Nat) (action : Action)
  | cancel
deriving DecidableEq, Repr

def Event.isAct : Event → Bool
  | .act _ _ => true
  | .cancel => false

/-- The next state of a task, if the action is its next one. -/
def Task.act? (o : CompileOptions) (cancelled : Bool) (task : Task)
    (action : Action) :
    Option Task :=
  match action, task.phase with
  | .start, .waiting => some { task with phase := .started }
  | .check true, .started =>
      if cancelled then some { task with phase := .refused } else none
  | .check false, .started =>
      if cancelled then none else some { task with phase := .cleared }
  | .write, .cleared =>
      some { task with phase := .written, slot := Decision.make o task.item }
  | .finish, .written => some { task with phase := .done }
  | .finish, .refused => some { task with phase := .failed }
  | _, _ => none

namespace State

def initial (items : List Item) : State :=
  { tasks := items.map fun item => { item := item } }

def active (s : State) : Nat := s.tasks.countP fun task => task.phase.isActive

/-- The first failed task is remembered, and cancels the others. -/
def put (s : State) (index : Nat) (task : Task) : State :=
  if task.phase = .failed then
    { tasks := s.tasks.set index task, cancelled := true,
      error := s.error.or (some .cancelled) }
  else { s with tasks := s.tasks.set index task }

/-- What planning returns once all tasks have finished: the failure, or the
slots. -/
def outcome? (s : State) : Option (Except PlanError Plan) :=
  if s.tasks.all fun task => task.phase.isFinished then
    match s.error with
    | some error => some (.error error)
    | none => some (.ok ⟨s.tasks.map Task.slot⟩)
  else none

end State

/-- The state after an event, if it can happen: a task starts only when a worker
is free. -/
def step? (workers : Nat) (o : CompileOptions) (s : State) :
    Event → Option State
  | .cancel => some { s with cancelled := true }
  | .act index action =>
      if action = .start ∧ workers ≤ s.active then none
      else
        match s.tasks[index]? with
        | none => none
        | some task => (task.act? o s.cancelled action).map (s.put index)

/-- The state after a list of events, if they can happen in this order. -/
def replay? (workers : Nat) (o : CompileOptions) (s : State) :
    List Event → Option State
  | [] => some s
  | event :: events =>
      (step? workers o s event).bind fun s' => replay? workers o s' events

inductive Moves (o : CompileOptions) (cancelled : Bool) (task : Task) :
    Action → Task → Prop
  | start (h : task.phase = .waiting) :
      Moves o cancelled task .start { task with phase := .started }
  | clear (h : task.phase = .started) (hseen : cancelled = false) :
      Moves o cancelled task (.check false) { task with phase := .cleared }
  | refuse (h : task.phase = .started) (hseen : cancelled = true) :
      Moves o cancelled task (.check true) { task with phase := .refused }
  | write (h : task.phase = .cleared) :
      Moves o cancelled task .write
        { task with phase := .written, slot := Decision.make o task.item }
  | finish (h : task.phase = .written) :
      Moves o cancelled task .finish { task with phase := .done }
  | fail (h : task.phase = .refused) :
      Moves o cancelled task .finish { task with phase := .failed }

theorem act?_eq_some_iff {o : CompileOptions} {cancelled : Bool}
    {task task' : Task} {action : Action} :
    task.act? o cancelled action = some task' ↔
      Moves o cancelled task action task' := by
  constructor
  · intro h
    unfold Task.act? at h
    split at h
    · rename_i hphase
      rw [← Option.some.inj h]
      exact .start hphase
    · rename_i hphase
      split at h
      · rename_i hseen
        rw [← Option.some.inj h]
        exact .refuse hphase hseen
      · simp at h
    · rename_i hphase
      split at h
      · simp at h
      · rename_i hseen
        rw [← Option.some.inj h]
        exact .clear hphase (Bool.eq_false_iff.mpr hseen)
    · rename_i hphase
      rw [← Option.some.inj h]
      exact .write hphase
    · rename_i hphase
      rw [← Option.some.inj h]
      exact .finish hphase
    · rename_i hphase
      rw [← Option.some.inj h]
      exact .fail hphase
    · simp at h
  · intro h
    cases h with
    | start h => simp [Task.act?, h]
    | clear h hseen => simp [Task.act?, h, hseen]
    | refuse h hseen => simp [Task.act?, h, hseen]
    | write h => simp [Task.act?, h]
    | finish h => simp [Task.act?, h]
    | fail h => simp [Task.act?, h]

namespace Moves

variable {o : CompileOptions} {cancelled : Bool} {task task' : Task}
    {action : Action}

theorem item_eq (h : Moves o cancelled task action task') :
    task'.item = task.item := by
  cases h <;> rfl

theorem steps_eq (h : Moves o cancelled task action task') :
    task'.phase.steps = task.phase.steps + 1 := by
  cases h <;> simp [Phase.steps, *]

theorem seen?_eq (h : Moves o cancelled task action task') (b : Bool) :
    task'.phase.seen? = some b ↔ task.phase.seen? = some b ∨
      action = .check b := by
  cases h <;> simp [Phase.seen?, *]

theorem seen_eq {b : Bool} (h : Moves o cancelled task (.check b) task') :
    b = cancelled := by
  cases h with
  | clear _ hseen => exact hseen.symm
  | refuse _ hseen => exact hseen.symm

/-- A worker is taken by starting only. -/
theorem isActive_le (h : Moves o cancelled task action task') :
    (if task'.phase.isActive then 1 else 0) ≤
      (if task.phase.isActive then 1 else 0) + if action =
        .start then 1 else 0 := by
  cases h <;> simp [Phase.isActive, *]

theorem seen?_of_failed (h : Moves o cancelled task action task')
    (hfailed : task'.phase = .failed) :
    task.phase.seen? = some true := by
  cases h with
  | fail hrefused =>
      rw [hrefused]
      rfl
  | start _ | clear _ _ | refuse _ _ | write _ | finish _ => simp at hfailed

theorem phase_ne_failed (h : Moves o cancelled task action task') :
    task.phase ≠ .failed := by
  cases h <;> simp [*]

/-- Once written, a slot holds the decision about the item of its task. -/
theorem slot_eq (h : Moves o cancelled task action task')
    (hslot : task.phase = .written → task.slot = Decision.make o task.item)
    (hphase : task'.phase = .written ∨ task'.phase = .done) :
    task'.slot = Decision.make o task'.item := by
  cases h with
  | write _ => rfl
  | finish hwritten => exact hslot hwritten
  | start _ | clear _ _ | refuse _ _ | fail _ => simp at hphase

end Moves

theorem exists_split {tasks : List Task} {index : Nat} {task : Task}
    (h : tasks[index]? = some task) :
    ∃ before after, tasks = before ++ task :: after ∧
      before.length = index := by
  obtain ⟨hlt, hget⟩ := List.getElem?_eq_some_iff.mp h
  refine ⟨tasks.take index, tasks.drop (index + 1), ?_, ?_⟩
  · rw [← hget, ← List.drop_eq_getElem_cons hlt, List.take_append_drop]
  · rw [List.length_take, Nat.min_eq_left (Nat.le_of_lt hlt)]

namespace State

variable {s : State} {before after : List Task} {task : Task}

theorem tasks_put (hsplit : s.tasks = before ++ task :: after) (task' : Task) :
    (s.put before.length task').tasks = before ++ task' :: after := by
  have hset : s.tasks.set before.length task' = before ++ task' :: after := by
    rw [hsplit, List.set_append_right _ _ (Nat.le_refl _), Nat.sub_self]
    rfl
  unfold put
  split
  · exact hset
  · exact hset

theorem cancelled_put (s : State) (index : Nat) (task : Task) :
    (s.put index task).cancelled =
      (s.cancelled || decide (task.phase = .failed)) := by
  unfold put
  split <;> simp [*]

/-- The first failure is the one that is kept. -/
theorem error_put (s : State) (index : Nat) (task : Task) :
    (s.put index task).error =
      if task.phase = .failed then s.error.or (some .cancelled)
      else s.error := by
  unfold put
  split <;> rfl

end State

/-- All that an event can do: it cancels, or moves one task, for which a worker
is free if the task starts. -/
theorem step?_cases {workers : Nat} {o : CompileOptions} {s s' : State}
    {event : Event} (h : step? workers o s event = some s') :
    (event = .cancel ∧ s' = { s with cancelled := true }) ∨
      ∃ before task after action task', event = .act before.length action
        ∧ s.tasks = before ++ task :: after
        ∧ (action = .start → s.active < workers)
        ∧ Moves o s.cancelled task action task'
        ∧ s' = s.put before.length task' := by
  cases event with
  | cancel => exact Or.inl ⟨rfl, (Option.some.inj h).symm⟩
  | act index action =>
      right
      rw [step?] at h
      split at h
      · simp at h
      · rename_i hfree
        split at h
        · simp at h
        · rename_i task htask
          obtain ⟨task', hact, hput⟩ := Option.map_eq_some_iff.mp h
          obtain ⟨before, after, hsplit, rfl⟩ := exists_split htask
          refine ⟨before, task, after, action, task', rfl, hsplit, ?_,
            act?_eq_some_iff.mp hact, hput.symm⟩
          intro hstart
          exact Nat.lt_of_not_le fun hle => hfree ⟨hstart, hle⟩

theorem replay?_append (workers : Nat) (o : CompileOptions) (s : State)
    (schedule more : List Event) :
    replay? workers o s (schedule ++ more) =
      (replay? workers o s schedule).bind fun s' =>
        replay? workers o s' more := by
  induction schedule generalizing s with
  | nil => rfl
  | cons event schedule ih =>
      cases hstep : step? workers o s event with
      | none => simp [replay?, hstep]
      | some s' => simp [replay?, hstep, ih]

/-- A property of schedules and the states they lead to holds of every run if it
holds at the beginning and every event keeps it. -/
theorem replay?_induction {workers : Nat} {o : CompileOptions}
    {P : List Event → State → Prop}
    {s₀ : State} (hinit : P [] s₀)
    (hstep : ∀ {schedule : List Event} {s s' : State} {event : Event},
      P schedule s →
      step? workers o s event = some s' → P (schedule ++ [event]) s')
    {schedule : List Event} {s : State}
    (hrun : replay? workers o s₀ schedule = some s) :
    P schedule s := by
  induction schedule using List.reverseRecOn generalizing s with
  | nil => exact Option.some.inj hrun ▸ hinit
  | append_singleton schedule event ih =>
      rw [replay?_append] at hrun
      obtain ⟨s', hbefore, hlast⟩ := Option.bind_eq_some_iff.mp hrun
      obtain ⟨s'', hevent, hnil⟩ := Option.bind_eq_some_iff.mp hlast
      rw [← Option.some.inj hnil]
      exact hstep (ih hbefore) hevent

end Schedule

end FeatureGate
