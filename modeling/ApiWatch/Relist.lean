import ApiWatch.Catalog

/-!
# The relist scheduler

Every invalidation sets `needRelist`, pushes `relistAfter` to twenty seconds after itself,
and broadcasts on `rlw.cond`.  The scheduler goroutine takes the mutex, and either sleeps
until `relistAfter`, relists (cancels every session and clears `needRelist`) once it has
passed, or parks in `cond.Wait` when no relist is pending.  Since it rechecks after every
sleep, a deadline pushed while it sleeps is honoured: a wave comes no earlier than twenty
seconds after the last invalidation before it, and two waves have an invalidation between
them.  Since it parks only with no relist pending, under the mutex, and every invalidation
wakes a parked scheduler, no wake-up is lost, and while the catalog's context is live the
scheduler's own steps carry out every pending relist.  Its context ending, on the other hand,
does not wake it.
-/

namespace ApiWatch.Relist

open ApiWatch.Go ApiWatch.Metav1 ApiWatch.Catalog

variable {cfg : Config}

/-! ## What a step does to the relist fields -/

theorem broadcast_ne_parked (scheduler : Scheduler) : scheduler.broadcast ≠ .parked := by
  cases scheduler <;> simp [Scheduler.broadcast]

/-- Only an invalidation moves `relistAfter`, and only an invalidation sets `needRelist`; a
step leaves the scheduler parked only if it parks it with no relist pending, or it was parked
already and the step leaves `needRelist` alone. -/
theorem apply_relist {rt rt' : Runtime} {now : Nat} {action : Action}
    (h : apply cfg rt now action = some rt') :
    rt'.relistAfter = (if action.invalidates then now + relistDelay else rt.relistAfter) ∧
    (action.invalidates = false → rt'.needRelist = true → rt.needRelist = true) ∧
    (rt'.scheduler = .parked →
      rt'.needRelist = false ∨ (rt.scheduler = .parked ∧ rt'.needRelist = rt.needRelist)) := by
  cases apply_effect h
  case invalidate | invalidateWithDefiner =>
    exact ⟨rfl, fun quiet => (by cases quiet), fun parked => absurd parked (broadcast_ne_parked _)⟩
  case schedulerSelect => exact ⟨rfl, fun _ => id, fun parked => by split_ifs at parked⟩
  case schedulerSleep | schedulerRelock | schedulerWake =>
    exact ⟨rfl, fun _ => id, fun parked => by cases parked⟩
  case schedulerWave => exact ⟨rfl, fun _ cleared => (by cases cleared), fun _ => .inl rfl⟩
  case schedulerPark => exact ⟨rfl, fun _ => id, fun _ => .inl ‹_›⟩
  all_goals exact ⟨rfl, fun _ => id, fun parked => .inr ⟨parked, rfl⟩⟩

/-- The last invalidation of a run. -/
def lastInvalidation (events : List Event) : Option Event :=
  events.reverse.find? (·.action.invalidates)

theorem lastInvalidation_append_singleton (events : List Event) (event : Event) :
    lastInvalidation (events ++ [event]) =
      if event.action.invalidates then some event else lastInvalidation events := by
  simp only [lastInvalidation, List.reverse_append, List.reverse_cons, List.reverse_nil,
    List.nil_append, List.singleton_append, List.find?_cons]
  split <;> simp_all

/-- `relistAfter` is twenty seconds past the last invalidation, and a relist is pending only
after some invalidation. -/
structure Timed (events : List Event) (rt : Runtime) : Prop where
  deadline : ∀ invalidation, lastInvalidation events = some invalidation →
    rt.relistAfter = invalidation.time + relistDelay
  pending : rt.needRelist = true → (lastInvalidation events).isSome

theorem Timed.step {events : List Event} {rt rt' : Runtime} {event : Event}
    (timed : Timed events rt) (stepped : step cfg rt event = some rt') :
    Timed (events ++ [event]) rt' := by
  obtain ⟨later, set, -⟩ := apply_relist (step_eq_some.1 stepped).2
  have last := lastInvalidation_append_singleton events event
  cases invalidates : event.action.invalidates
  · simp only [invalidates, if_false, Bool.false_eq_true] at later last
    exact ⟨fun invalidation found => later.trans (timed.deadline invalidation (last ▸ found)),
      fun due => last ▸ timed.pending (set invalidates due)⟩
  · simp only [invalidates, if_true] at later last
    exact ⟨fun invalidation found => by rw [later, ← Option.some.inj (last.symm.trans found)],
      fun _ => by rw [last]; rfl⟩

/-- The scheduler parks only with no relist pending, and has returned only once the catalog's
context is done. -/
structure SchedulerSound (rt : Runtime) : Prop where
  parkedIdle : rt.scheduler = .parked → rt.needRelist = false
  exitedDone : rt.scheduler = .exited → rt.ctxDone = true

theorem broadcast_eq_exited {scheduler : Scheduler} (exited : scheduler.broadcast = .exited) :
    scheduler = .exited := by
  cases scheduler <;> simp_all [Scheduler.broadcast]

theorem SchedulerSound.step {rt rt' : Runtime} {event : Event} (sound : SchedulerSound rt)
    (stepped : step cfg rt event = some rt') : SchedulerSound rt' := by
  obtain ⟨time, action⟩ := event
  have applied := (step_eq_some.1 stepped).2
  refine ⟨fun parked => ?_, ?_⟩
  · rcases (apply_relist applied).2.2 parked with cleared | ⟨wasParked, same⟩
    · exact cleared
    · exact same.trans (sound.parkedIdle wasParked)
  · cases apply_effect applied
    case invalidate | invalidateWithDefiner =>
      exact fun exited => sound.exitedDone (broadcast_eq_exited exited)
    case schedulerSelect => exact fun exited => by split_ifs at exited with done; exact done
    case schedulerSleep | schedulerWave | schedulerPark | schedulerRelock | schedulerWake =>
      exact fun exited => by cases exited
    case cancelContext => exact fun _ => rfl
    all_goals exact sound.exitedDone

theorem reachable_schedulerSound {rt : Runtime} (reach : Reachable cfg rt) : SchedulerSound rt :=
  have ⟨_, run⟩ := reach
  exec_preserves SchedulerSound (fun sound stepped => sound.step stepped) run
    ⟨fun _ => rfl, fun exited => by cases exited⟩

/--
In every reachable state a parked scheduler has no relist pending: it parks only after
reading `needRelist == false` under the mutex, and every critical section that sets
`needRelist` also broadcasts, which wakes it.
-/
theorem parked_without_pending_relist {rt : Runtime} (reach : Reachable cfg rt)
    (parked : rt.scheduler = .parked) : rt.needRelist = false :=
  (reachable_schedulerSound reach).parkedIdle parked

/-- An invalidation at time 0: the scheduler sleeps until the relist is due, carries out the
wave, and parks. -/
theorem parked_without_pending_relist_after_wave :
    let events : List Event :=
      [⟨0, .invalidate⟩, ⟨0, .schedulerSelect⟩, ⟨0, .schedulerLock⟩,
        ⟨relistDelay, .schedulerWake⟩, ⟨relistDelay, .schedulerSelect⟩,
        ⟨relistDelay, .schedulerLock⟩, ⟨relistDelay, .schedulerSelect⟩,
        ⟨relistDelay, .schedulerLock⟩]
    ∃ rt, exec ⟨"kind", true, fun _ => ⟨[], [], []⟩⟩ init events = some rt ∧
      rt.scheduler = .parked ∧ rt.needRelist = false := by
  intro events
  exact ⟨_, rfl, rfl, @parked_without_pending_relist ⟨"kind", true, fun _ => ⟨[], [], []⟩⟩ _
    ⟨events, rfl⟩ rfl⟩

/-! ## A pending relist is carried out -/

section Progress

variable {rt : Runtime}

/-- Wherever the scheduler is in its loop, short of parked or returned, and with the catalog's
context live, its own steps bring it to its critical section and touch nothing else. -/
theorem reaches_lock (live : rt.ctxDone = false) (notParked : rt.scheduler ≠ .parked)
    (notExited : rt.scheduler ≠ .exited) :
    ∃ lead time, lead.all (·.action.ofScheduler) ∧ rt.now ≤ time ∧
      exec cfg rt lead = some { rt with now := time, scheduler := .ready } := by
  cases scheduler : rt.scheduler with
  | top =>
    exact ⟨[⟨rt.now, .schedulerSelect⟩], rt.now, rfl, le_rfl,
      by simp [exec, step, apply, scheduler, live]⟩
  | ready =>
    refine ⟨[], rt.now, rfl, le_rfl, ?_⟩
    cases rt
    simp_all
  | signalled =>
    exact ⟨[⟨rt.now, .schedulerRelock⟩, ⟨rt.now, .schedulerSelect⟩], rt.now, rfl, le_rfl,
      by simp [exec, step, apply, scheduler, live]⟩
  | sleeping wakeAt =>
    have later := Nat.not_lt.2 (le_max_left rt.now wakeAt)
    exact ⟨[⟨max rt.now wakeAt, .schedulerWake⟩, ⟨max rt.now wakeAt, .schedulerSelect⟩],
      max rt.now wakeAt, rfl, le_max_left _ _,
      by simp only [exec, step, later, lt_self_iff_false, ↓reduceIte, apply, scheduler, le_max_right,
        live, Option.some_bind, Bool.false_eq_true]⟩
  | parked => exact absurd scheduler notParked
  | exited => exact absurd scheduler notExited

/-- A critical section that finds the relist pending and due is a wave. -/
theorem lock_waves {time : Nat} (ready : rt.scheduler = .ready) (pending : rt.needRelist = true)
    (later : rt.now ≤ time) (due : rt.relistAfter ≤ time) :
    step cfg rt ⟨time, .schedulerLock⟩ = some { rt with
      now := time, sessions := cancelAll rt, needRelist := false, scheduler := .top } := by
  simp [step, Nat.not_lt.2 later, apply, ready, relistCheck, pending, Nat.not_lt.2 due]
  rfl

end Progress

/--
A pending relist is never lost: from every reachable state in which the catalog's context is
live and a relist is pending, the scheduler goroutine's own steps, with no other goroutine
running, carry out the wave: `needRelist` is cleared and every session in `rlw.cancels` is
cancelled, no earlier than `relistAfter`.
-/
theorem pending_relist_carried_out {rt : Runtime} (reach : Reachable cfg rt)
    (live : rt.ctxDone = false) (pending : rt.needRelist = true) :
    ∃ events rt', (∀ event ∈ events, event.action.ofScheduler) ∧
      exec cfg rt events = some rt' ∧ rt'.needRelist = false ∧ rt'.sessions = cancelAll rt ∧
      rt.relistAfter ≤ rt'.now := by
  have sound := reachable_schedulerSound reach
  obtain ⟨lead, time, own, later, led⟩ := @reaches_lock cfg rt live
    (fun parked => by simp [sound.parkedIdle parked] at pending)
    (fun exited => by simp [sound.exitedDone exited] at live)
  have waved : exec cfg rt (lead ++ [⟨max time rt.relistAfter, .schedulerLock⟩]) =
      some { rt with
        now := max time rt.relistAfter, sessions := cancelAll rt, needRelist := false
        scheduler := .top } := by
    rw [exec_append_singleton, led, Option.some_bind]
    exact lock_waves rfl pending (le_max_left _ _) (le_max_right _ _)
  exact ⟨_, _, List.all_eq_true.1 (by rw [List.all_append, own]; rfl), waved, rfl, rfl,
    le_max_right _ _⟩

/-- An invalidation at the start: the scheduler, still at the top of its loop, relists by
itself at the deadline. -/
theorem pending_relist_carried_out_first :
    ∃ rt, exec ⟨"kind", true, fun _ => ⟨[], [], []⟩⟩ init [⟨0, .invalidate⟩] = some rt ∧
      ∃ events rt', (∀ event ∈ events, event.action.ofScheduler) ∧
        exec ⟨"kind", true, fun _ => ⟨[], [], []⟩⟩ rt events = some rt' ∧
        rt'.needRelist = false ∧ rt'.sessions = cancelAll rt ∧ rt.relistAfter ≤ rt'.now :=
  ⟨_, rfl, pending_relist_carried_out ⟨[⟨0, .invalidate⟩], rfl⟩ rfl rfl⟩

/-! ## The catalog's context does not wake the scheduler -/

/-- After the scheduler parks, the catalog's context ends: the scheduler stays parked with no
broadcast pending, and none of its own steps is enabled, so it never returns unless an
invalidation wakes it. -/
theorem scheduler_stranded_after_cancel :
    ∃ rt, exec ⟨"kind", true, fun _ => ⟨[], [], []⟩⟩ init
        [⟨0, .schedulerSelect⟩, ⟨0, .schedulerLock⟩, ⟨1, .cancelContext⟩] = some rt ∧
      rt.ctxDone = true ∧ rt.scheduler = .parked ∧
      ∀ event : Event, event.action.ofScheduler →
        step ⟨"kind", true, fun _ => ⟨[], [], []⟩⟩ rt event = none := by
  refine ⟨_, rfl, rfl, rfl, fun ⟨time, action⟩ own => ?_⟩
  cases action <;> simp [Action.ofScheduler] at own <;> simp [step, apply, relistCheck, init]

end ApiWatch.Relist
