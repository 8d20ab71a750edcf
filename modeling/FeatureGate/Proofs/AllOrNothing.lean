import Mathlib
import FeatureGate.Proofs.Schedule

/-!
What planning returns under every schedule. Each fact about runs is kept by
every event; together they say that an unfinished run can go on, that it ends
within four steps a task, and what it ends with.
-/

namespace FeatureGate

namespace Schedule

section Run

variable {workers : Nat} {o : CompileOptions} {items : List Item}
    {schedule : List Event}
  {s : State}

/-- The items never change. -/
theorem items_of_run
    (hrun : replay? workers o (.initial items) schedule = some s) :
    s.tasks.map Task.item = items := by
  refine replay?_induction (P := fun _ s => s.tasks.map Task.item =
    items) ?_ ?_ hrun
  · simp [State.initial, Function.comp_def]
  · intro schedule s s' event hs hstep
    rcases step?_cases hstep with
      ⟨-, rfl⟩ | ⟨before, task, after, action, task', -, hsplit, -, hmove, rfl⟩
    · exact hs
    · rw [hsplit] at hs
      rw [State.tasks_put hsplit]
      simpa [hmove.item_eq] using hs

/-- No slot is taken for written before its decision stands in it. -/
theorem slot_of_run
    (hrun : replay? workers o (.initial items) schedule = some s) :
    ∀ task ∈ s.tasks, task.phase = .written ∨ task.phase = .done →
      task.slot = Decision.make o task.item := by
  refine replay?_induction (P := fun _ s =>
    ∀ task ∈ s.tasks, task.phase = .written ∨ task.phase = .done →
      task.slot = Decision.make o task.item) ?_ ?_ hrun
  · intro task htask hphase
    obtain ⟨item, -, rfl⟩ := List.mem_map.mp htask
    simp at hphase
  · intro schedule s s' event hs hstep
    rcases step?_cases hstep with
      ⟨-, rfl⟩ | ⟨before, task, after, action, task', -, hsplit, -, hmove, rfl⟩
    · exact hs
    · rw [hsplit, List.forall_mem_append, List.forall_mem_cons] at hs
      rw [State.tasks_put hsplit, List.forall_mem_append, List.forall_mem_cons]
      obtain ⟨hbefore, htask, hafter⟩ := hs
      refine ⟨hbefore, fun hphase => ?_, hafter⟩
      exact hmove.slot_eq (fun hwritten => htask (Or.inl hwritten)) hphase

/-- There are never more active tasks than workers. -/
theorem active_of_run
    (hrun : replay? workers o (.initial items) schedule = some s) :
    s.active ≤ workers := by
  refine replay?_induction (P := fun _ s => s.active ≤ workers) ?_ ?_ hrun
  · simp [State.active, State.initial, List.countP_map, Function.comp_def,
      Phase.isActive]
  · intro schedule s s' event hs hstep
    rcases step?_cases hstep with
      ⟨-, rfl⟩ | ⟨before, task, after, action, task', -, hsplit, hfree,
        hmove, rfl⟩
    · exact hs
    · have hle := hmove.isActive_le
      simp only [State.active, State.tasks_put hsplit, hsplit,
        List.countP_append, List.countP_cons] at hs hfree ⊢
      by_cases hstart : action = .start
      · have := hfree hstart
        simp only [hstart, if_true] at hle
        omega
      · simp only [hstart, if_false] at hle
        omega

/-- An error is remembered exactly if a task has failed. -/
theorem error_of_run
    (hrun : replay? workers o (.initial items) schedule = some s) :
    s.error = if s.tasks.any fun task => decide (task.phase = .failed) then
      some .cancelled
      else none := by
  refine replay?_induction (P := fun _ s => s.error =
    if s.tasks.any fun task => decide (task.phase = .failed) then
      some .cancelled
    else none)
    ?_ ?_ hrun
  · simp [State.initial]
  · intro schedule s s' event hs hstep
    rcases step?_cases hstep with
      ⟨-, rfl⟩ | ⟨before, task, after, action, task', -, hsplit, -, hmove, rfl⟩
    · exact hs
    · have hnot := hmove.phase_ne_failed
      rw [State.error_put, State.tasks_put hsplit, hs, hsplit]
      by_cases hfailed : task'.phase = .failed
      · simp only [hfailed, if_true, List.any_append, List.any_cons,
          decide_true, Bool.true_or, Bool.or_true]
        split <;> rfl
      · simp [hfailed, hnot]

/-- What the tasks have seen is what the schedule says they saw. -/
theorem seen_of_run
    (hrun : replay? workers o (.initial items) schedule = some s) (b : Bool) :
    (∃ index, .act index (.check b) ∈ schedule) ↔
      ∃ task ∈ s.tasks, task.phase.seen? = some b := by
  refine replay?_induction (P := fun schedule s =>
    (∃ index, .act index (.check b) ∈ schedule) ↔
      ∃ task ∈ s.tasks, task.phase.seen? = some b) ?_ ?_ hrun
  · simp [State.initial, Phase.seen?]
  · intro schedule s s' event hs hstep
    rcases step?_cases hstep with
      ⟨rfl, rfl⟩ | ⟨before, task, after, action, task', rfl, hsplit, -,
        hmove, rfl⟩
    · simpa using hs
    · rw [hsplit] at hs
      rw [State.tasks_put hsplit]
      simp only [List.mem_append, List.mem_cons, List.not_mem_nil, or_false,
        exists_or, or_and_right, exists_eq_left, Event.act.injEq] at hs ⊢
      rw [hs, hmove.seen?_eq b, eq_comm (a := Action.check b), or_assoc,
        or_right_comm]

/-- Planning counts as cancelled from the first cancellation on. A task that
fails cancels too, but only after it has seen that planning is cancelled. -/
theorem cancelled_of_run
    (hrun : replay? workers o (.initial items) schedule = some s) :
    s.cancelled = true ↔ .cancel ∈ schedule := by
  refine (replay?_induction (P := fun schedule s =>
    (s.cancelled = true ↔ .cancel ∈ schedule) ∧
      ∀ task ∈ s.tasks, task.phase.seen? = some true →
        s.cancelled = true) ?_ ?_ hrun).1
  · simp [State.initial, Phase.seen?]
  · rintro schedule s s' event ⟨hcancelled, hseen⟩ hstep
    rcases step?_cases hstep with
      ⟨rfl, rfl⟩ | ⟨before, task, after, action, task', rfl, hsplit, -,
        hmove, rfl⟩
    · simp
    · rw [hsplit, List.forall_mem_append, List.forall_mem_cons] at hseen
      obtain ⟨hbefore, htask, hafter⟩ := hseen
      have hsame : (s.put before.length task').cancelled = s.cancelled := by
        rw [State.cancelled_put]
        by_cases hfailed : task'.phase = .failed
        · rw [htask (hmove.seen?_of_failed hfailed)]
          rfl
        · simp [hfailed]
      rw [hsame, State.tasks_put hsplit, List.forall_mem_append,
        List.forall_mem_cons]
      refine ⟨by simpa using hcancelled, hbefore, fun hrefused => ?_, hafter⟩
      rcases (hmove.seen?_eq true).mp hrefused with hearlier | rfl
      · exact htask hearlier
      · exact hmove.seen_eq.symm

/-- Every action of a schedule is one step of one task. -/
theorem steps_of_run
    (hrun : replay? workers o (.initial items) schedule = some s) :
    schedule.countP Event.isAct = (s.tasks.map fun task =>
      task.phase.steps).sum := by
  refine replay?_induction (P := fun schedule s => schedule.countP Event.isAct =
    (s.tasks.map fun task => task.phase.steps).sum) ?_ ?_ hrun
  · simp [State.initial, Phase.steps, Function.comp_def]
  · intro schedule s s' event hs hstep
    rcases step?_cases hstep with
      ⟨rfl, rfl⟩ | ⟨before, task, after, action, task', rfl, hsplit, -,
        hmove, rfl⟩
    · simpa [Event.isAct] using hs
    · rw [hsplit] at hs
      rw [State.tasks_put hsplit, List.countP_append, hs]
      simp only [List.map_append, List.map_cons, List.sum_append, List.sum_cons,
        hmove.steps_eq, List.countP_singleton, Event.isAct, if_true]
      omega

/-- A task takes at most four steps, so no schedule goes on for ever. -/
theorem length_of_run
    (hrun : replay? workers o (.initial items) schedule = some s) :
    schedule.countP Event.isAct ≤ 4 * items.length := by
  have hbound : ∀ n ∈ s.tasks.map fun task => task.phase.steps, n ≤ 4 := by
    intro n hn
    obtain ⟨task, -, rfl⟩ := List.mem_map.mp hn
    cases task.phase <;> decide
  have hsum := List.sum_le_card_nsmul _ 4 hbound
  have hlength := congrArg List.length (items_of_run hrun)
  rw [List.length_map] at hlength
  rw [steps_of_run hrun]
  simp only [List.length_map, smul_eq_mul] at hsum
  omega

/-- A task sees the cancellation exactly when it has come before. -/
theorem seen_iff_cancel_before {before after : List Event} {index : Nat}
    {seen : Bool}
    (hrun : replay? workers o (.initial items)
      (before ++ .act index (.check seen) :: after)
      = some s) : seen = true ↔ .cancel ∈ before := by
  rw [replay?_append] at hrun
  obtain ⟨s₁, hbefore, hrest⟩ := Option.bind_eq_some_iff.mp hrun
  obtain ⟨s₂, hstep, -⟩ := Option.bind_eq_some_iff.mp hrest
  rw [← cancelled_of_run hbefore]
  rcases step?_cases hstep with
    ⟨hevent, -⟩ | ⟨_, task, _, action, task', hevent, -, -, hmove, -⟩
  · simp at hevent
  · simp only [Event.act.injEq] at hevent
    rw [← hevent.2] at hmove
    rw [hmove.seen_eq]

theorem outcome?_eq_some {result : Except PlanError Plan}
    (h : s.outcome? = some result) :
    (∀ task ∈ s.tasks, task.phase.isFinished = true) ∧
      result = match s.error with
        | some error => .error error
        | none => .ok ⟨s.tasks.map Task.slot⟩ := by
  unfold State.outcome? at h
  split at h
  · rename_i hall
    refine ⟨List.all_eq_true.mp hall, ?_⟩
    cases herror : s.error <;> simp_all
  · simp at h

theorem exists_outcome (h : ∀ task ∈ s.tasks, task.phase.isFinished = true) :
    ∃ result, s.outcome? = some result := by
  rw [State.outcome?, if_pos (List.all_eq_true.mpr h)]
  cases s.error <;> exact ⟨_, rfl⟩

theorem phase_of_isFinished {phase : Phase} (h : phase.isFinished = true) :
    phase = .done ∨ phase = .failed := by
  cases phase <;> simp_all [Phase.isFinished]

/-- Planning fails if a task has seen the cancellation, and otherwise every slot
has its decision. -/
theorem outcome_of_run
    (hrun : replay? workers o (.initial items) schedule = some s)
    {result : Except PlanError Plan} (hresult : s.outcome? = some result) :
    ((∃ index, .act index (.check true) ∈ schedule) ∧
      result = .error .cancelled) ∨
      ((¬ ∃ index, .act index (.check true) ∈ schedule) ∧
        result = .ok (Plan.make items o)) := by
  obtain ⟨hfinished, rfl⟩ := outcome?_eq_some hresult
  rw [seen_of_run hrun, error_of_run hrun]
  by_cases hfailed : ∃ task ∈ s.tasks, task.phase = .failed
  · left
    obtain ⟨task, htask, hphase⟩ := hfailed
    refine ⟨⟨task, htask, by rw [hphase]; rfl⟩, ?_⟩
    have hany :
        (s.tasks.any fun task => decide (task.phase = .failed)) = true :=
      List.any_eq_true.mpr ⟨task, htask, decide_eq_true hphase⟩
    rw [if_pos hany]
  · right
    have hdone : ∀ task ∈ s.tasks, task.phase = .done := by
      intro task htask
      rcases phase_of_isFinished (hfinished task htask) with hdone | hphase
      · exact hdone
      · exact absurd ⟨task, htask, hphase⟩ hfailed
    constructor
    · rintro ⟨task, htask, hseen⟩
      rw [hdone task htask] at hseen
      simp [Phase.seen?] at hseen
    · have hany :
          ¬ (s.tasks.any fun task => decide (task.phase = .failed)) = true := by
        simpa using hfailed
      have hslots : s.tasks.map Task.slot = items.map (Decision.make o) := by
        rw [← items_of_run hrun, List.map_map]
        apply List.map_congr_left
        intro task htask
        exact slot_of_run hrun task htask (Or.inr (hdone task htask))
      rw [if_neg hany, hslots]
      rfl

theorem check_not_mem_of_nil
    (hrun : replay? workers o (.initial []) schedule = some s) (b : Bool) :
    ¬ ∃ index, .act index (.check b) ∈ schedule := by
  rw [seen_of_run hrun]
  rintro ⟨task, htask, -⟩
  rw [List.map_eq_nil_iff.mp (items_of_run hrun)] at htask
  simp at htask

/-- Without items there is nothing to cancel. -/
theorem outcome_of_nil
    (hrun : replay? workers o (.initial []) schedule = some s)
    {result : Except PlanError Plan} (hresult : s.outcome? = some result) :
    result = .ok (Plan.make [] o) := by
  rcases outcome_of_run hrun hresult with ⟨hseen, -⟩ | ⟨-, hplan⟩
  · exact absurd hseen (check_not_mem_of_nil hrun true)
  · exact hplan

/-- After a cancellation before everything else, no task gets past its
question. -/
theorem check_false_not_mem_of_cancel_first
    (hrun : replay? workers o (.initial items) (.cancel :: schedule) = some s) :
    ¬ ∃ index, .act index (.check false) ∈ Event.cancel :: schedule := by
  rintro ⟨index, hmem⟩
  obtain ⟨before, after, hsplit⟩ := List.append_of_mem hmem
  cases before with
  | nil => simp at hsplit
  | cons event before =>
      rw [hsplit] at hrun
      have hcancel : Event.cancel ∈ event :: before := by
        rw [← (List.cons.inj hsplit).1]
        exact List.mem_cons_self
      simpa using (seen_iff_cancel_before hrun).mpr hcancel

/-- If planning is cancelled before it begins, no plan comes of it. -/
theorem outcome_of_cancel_first
    (hrun : replay? workers o (.initial items) (.cancel :: schedule) = some s)
    {result : Except PlanError Plan} (hresult : s.outcome? = some result) :
    result = Plan.makeUnless true items o := by
  cases items with
  | nil => exact outcome_of_nil hrun hresult
  | cons item items =>
      obtain ⟨task, tasks, htasks, -, -⟩ :=
        List.map_eq_cons_iff.mp (items_of_run hrun)
      have htask : task ∈ s.tasks := by
        rw [htasks]
        exact List.mem_cons_self
      have hseen :
          ∃ index, .act index (.check true) ∈ Event.cancel :: schedule := by
        rcases phase_of_isFinished ((outcome?_eq_some hresult).1 task htask)
          with hdone | hfailed
        · have hclear :=
            (seen_of_run hrun false).mpr ⟨task, htask, by rw [hdone]; rfl⟩
          exact absurd hclear (check_false_not_mem_of_cancel_first hrun)
        · exact (seen_of_run hrun true).mpr ⟨task, htask, by rw [hfailed]; rfl⟩
      rcases outcome_of_run hrun hresult with ⟨-, rfl⟩ | ⟨hunseen, -⟩
      · rfl
      · exact absurd hseen hunseen

theorem outcome_of_no_cancel
    (hrun : replay? workers o (.initial items) schedule = some s)
    (hnone : .cancel ∉ schedule) {result : Except PlanError Plan}
    (hresult : s.outcome? = some result) :
    result = Plan.makeUnless false items o := by
  rcases outcome_of_run hrun hresult with ⟨⟨index, hseen⟩, -⟩ | ⟨-, rfl⟩
  · obtain ⟨before, after, rfl⟩ := List.append_of_mem hseen
    have hcancel := (seen_iff_cancel_before hrun).mp rfl
    exact absurd (List.mem_append_left _ hcancel) hnone
  · simp [Plan.makeUnless]

end Run

/-- An active task can always go on. -/
theorem exists_act_of_active (o : CompileOptions) (cancelled : Bool)
    {task : Task} (h : task.phase.isActive = true) :
    ∃ action task', action ≠ .start ∧ task.act? o cancelled action =
      some task' := by
  cases hphase : task.phase with
  | started =>
      cases cancelled with
      | true =>
          exact ⟨.check true, _,
            by simp, act?_eq_some_iff.mpr (.refuse hphase rfl)⟩
      | false =>
          exact ⟨.check false, _,
            by simp, act?_eq_some_iff.mpr (.clear hphase rfl)⟩
  | cleared => exact ⟨.write, _, by simp, act?_eq_some_iff.mpr (.write hphase)⟩
  | refused => exact ⟨.finish, _, by simp, act?_eq_some_iff.mpr (.fail hphase)⟩
  | written =>
      exact ⟨.finish, _, by simp, act?_eq_some_iff.mpr (.finish hphase)⟩
  | waiting | done | failed =>
      rw [hphase] at h
      simp [Phase.isActive] at h

theorem step?_of_act {workers : Nat} {o : CompileOptions} {s : State}
    {index : Nat} {action : Action} {task task' : Task}
    (htask : s.tasks[index]? = some task)
    (hfree : action = .start → s.active < workers)
    (hact : task.act? o s.cancelled action = some task') :
    step? workers o s (.act index action) = some (s.put index task') := by
  have hcan : ¬ (action = .start ∧ workers ≤ s.active) := by
    rintro ⟨hstart, hle⟩
    exact absurd (hfree hstart) (Nat.not_lt.mpr hle)
  rw [step?, if_neg hcan, htask]
  simp [hact]

/-- While tasks are unfinished, one of them can go on. -/
theorem exists_step_of_unfinished {workers : Nat} (hworkers : 0 < workers)
    (o : CompileOptions) {s : State} (h : s.outcome? = none) :
    ∃ index action s', step? workers o s (.act index action) = some s' := by
  by_cases hactive : ∃ task ∈ s.tasks, task.phase.isActive = true
  · obtain ⟨task, htask, hphase⟩ := hactive
    obtain ⟨index, hindex⟩ := List.mem_iff_getElem?.mp htask
    obtain ⟨action, task', hne, hact⟩ :=
      exists_act_of_active o s.cancelled hphase
    exact ⟨index, action, _,
      step?_of_act hindex (fun hstart => absurd hstart hne) hact⟩
  · -- No worker is in use, so a task that has not finished is still waiting.
    have hzero : s.active = 0 := by
      rw [State.active, List.countP_eq_zero]
      intro task htask hphase
      exact hactive ⟨task, htask, hphase⟩
    have hopen : ∃ task ∈ s.tasks, task.phase.isFinished = false := by
      by_contra hnone
      obtain ⟨result, hresult⟩ := exists_outcome fun task htask => by
        rw [← Bool.not_eq_false]
        exact fun hphase => hnone ⟨task, htask, hphase⟩
      simp [h] at hresult
    obtain ⟨task, htask, hphase⟩ := hopen
    have hwaiting : task.phase = .waiting := by
      have hidle : task.phase.isActive = false := by
        rw [Bool.eq_false_iff]
        exact fun hphase => hactive ⟨task, htask, hphase⟩
      cases hcase : task.phase <;> simp_all [Phase.isActive, Phase.isFinished]
    obtain ⟨index, hindex⟩ := List.mem_iff_getElem?.mp htask
    have hmove :
        Moves o s.cancelled task .start { task with phase := .started } :=
      .start hwaiting
    exact ⟨index, .start, _, step?_of_act hindex (fun _ => hzero ▸ hworkers)
      (act?_eq_some_iff.mpr hmove)⟩

end Schedule

namespace Plan

/-- A plan holds the decisions of the items, and its parts sort the items by
them: in the order of the items, and every item among the included or the
excluded ones. -/
structure Sorts (plan : Plan) (items : List Item)
    (o : CompileOptions) : Prop where
  decisions_eq : plan.decisions = items.map fun item =>
    ⟨item, shouldInclude item.attrs o, isTest item.attrs, isCfgTest item.attrs⟩
  included_eq : plan.included = items.filter fun item =>
    shouldInclude item.attrs o
  excluded_eq : plan.excluded = items.filter fun item =>
    !shouldInclude item.attrs o
  tests_eq : plan.tests = items.filter fun item => isTest item.attrs
  testOnly_eq : plan.testOnly = items.filter fun item => isCfgTest item.attrs
  sublist : ∀ part ∈ [plan.included, plan.excluded, plan.tests, plan.testOnly],
    part.Sublist items
  perm : (plan.included ++ plan.excluded).Perm items

theorem select_make (items : List Item) (o : CompileOptions)
    (p : Decision → Bool) :
    (make items o).select p = items.filter fun item =>
      p (Decision.make o item) := by
  have hitem : Decision.item ∘ Decision.make o = id := rfl
  rw [select, make, List.filter_map, List.map_map, hitem, List.map_id]
  rfl

theorem select_make_sublist (items : List Item) (o : CompileOptions)
    (p : Decision → Bool) :
    ((make items o).select p).Sublist items := by
  rw [select_make]
  exact List.filter_sublist

theorem sorts_make (items : List Item) (o : CompileOptions) :
    (make items o).Sorts items o where
  decisions_eq := rfl
  included_eq := select_make items o _
  excluded_eq := select_make items o _
  tests_eq := select_make items o _
  testOnly_eq := select_make items o _
  sublist := by
    intro part hpart
    simp only [List.mem_cons, List.not_mem_nil, or_false] at hpart
    rcases hpart with rfl | rfl | rfl | rfl
      <;> exact select_make_sublist items o _
  perm := by
    rw [included, excluded, select_make, select_make]
    exact List.filter_append_perm _ items

end Plan

open Schedule

/-- Planning does not depend on the schedule, and gives all or nothing. Under
every worker bound, order of steps and moment of cancellation it goes on until
it returns, and then it has failed exactly if a task has seen the cancellation,
and otherwise returns the sequential plan. -/
theorem plan_all_or_nothing {workers : Nat} (hworkers : 0 < workers)
    (items : List Item) (o : CompileOptions) {schedule : List Event} {s : State}
    (hrun : replay? workers o (.initial items) schedule = some s) :
    s.active ≤ workers ∧
    schedule.countP Event.isAct ≤ 4 * items.length ∧
    ((∃ result, s.outcome? = some result) ∨
      ∃ index action s', step? workers o s (.act index action) = some s') ∧
    (∀ before index seen after,
      schedule = before ++ .act index (.check seen) :: after →
      (seen = true ↔ .cancel ∈ before)) ∧
    (∀ result, s.outcome? = some result →
      (result = .error .cancelled ↔
        ∃ index, .act index (.check true) ∈ schedule) ∧
      (result = .ok (Plan.make items o) ↔
        ¬ ∃ index, .act index (.check true) ∈ schedule) ∧
      (items = [] → result = .ok (Plan.make items o)) ∧
      (schedule.head? = some .cancel → result = Plan.makeUnless true items o) ∧
      (.cancel ∉ schedule → result = Plan.makeUnless false items o)) ∧
    (Plan.make items o).Sorts items o ∧
    ∀ o' : CompileOptions,
      (Plan.make items o').tests = (Plan.make items o).tests
      ∧ (Plan.make items o').testOnly = (Plan.make items o).testOnly := by
  refine ⟨active_of_run hrun, length_of_run hrun, ?_, ?_, ?_,
    Plan.sorts_make items o, ?_⟩
  · cases houtcome : s.outcome? with
    | none => exact Or.inr (exists_step_of_unfinished hworkers o houtcome)
    | some result => exact Or.inl ⟨result, rfl⟩
  · rintro before index seen after rfl
    exact seen_iff_cancel_before hrun
  · intro result hresult
    refine ⟨?_, ?_, ?_, ?_,
      fun hnone => outcome_of_no_cancel hrun hnone hresult⟩
    · rcases outcome_of_run hrun hresult with ⟨hseen, rfl⟩ | ⟨hunseen, rfl⟩
      · exact iff_of_true rfl hseen
      · exact iff_of_false (by simp) hunseen
    · rcases outcome_of_run hrun hresult with ⟨hseen, rfl⟩ | ⟨hunseen, rfl⟩
      · exact iff_of_false (by simp) (not_not_intro hseen)
      · exact iff_of_true rfl hunseen
    · rintro rfl
      exact outcome_of_nil hrun hresult
    · intro hhead
      obtain ⟨rest, rfl⟩ := List.head?_eq_some_iff.mp hhead
      exact outcome_of_cancel_first hrun hresult
  · intro o'
    have hsorts := Plan.sorts_make items o
    have hsorts' := Plan.sorts_make items o'
    exact ⟨hsorts'.tests_eq.trans hsorts.tests_eq.symm,
      hsorts'.testOnly_eq.trans hsorts.testOnly_eq.symm⟩

/-- The first task has got past its question when the cancellation comes, and
still writes its slot; the second task sees the cancellation, and there is no
plan. -/
theorem plan_all_or_nothing_late_cancel :
    ∃ s, replay? 1 {}
      (.initial [⟨utf8 "fn", utf8 "a", [], {}⟩, ⟨utf8 "fn", utf8 "b", [], {}⟩])
        [.act 0 .start, .act 0 (.check false), .cancel, .act 0 .write,
          .act 0 .finish, .act 1 .start, .act 1
          (.check true), .act 1 .finish] = some s
      ∧ 0 < 1 ∧ s.active ≤ 1 ∧ s.outcome? = some (.error .cancelled) := by
  obtain ⟨s, hrun⟩ := Option.isSome_iff_exists.mp (show (replay? 1 {}
    (.initial [⟨utf8 "fn", utf8 "a", [], {}⟩, ⟨utf8 "fn", utf8 "b", [], {}⟩])
    [.act 0 .start, .act 0 (.check false), .cancel, .act 0 .write,
      .act 0 .finish, .act 1 .start, .act 1 (.check true),
      .act 1 .finish]).isSome = true by decide)
  obtain ⟨hactive, -, -, -, houtcome, -⟩ :=
    plan_all_or_nothing (by decide) _ _ hrun
  refine ⟨s, hrun, by decide, hactive, ?_⟩
  have hfinished : s.outcome?.isSome = true := by
    rw [← Option.some.inj hrun]
    decide
  obtain ⟨result, hresult⟩ := Option.isSome_iff_exists.mp hfinished
  rw [hresult, (houtcome result hresult).1.mpr ⟨1, by decide⟩]

end FeatureGate
