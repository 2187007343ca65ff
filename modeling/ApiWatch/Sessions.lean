import ApiWatch.Catalog

/-!
# Watch sessions and `rlw.cancels`

A successful `Watch` appends its session's cancel function to `rlw.cancels`, and the first
critical section of `List` and a relist wave call every function there.  Nothing ever
removes one: `rlw.cancels` holds the cancel function of every session ever opened, in the
order they were opened, whether the session is still open or was stopped, timed out, or
ended by a `List` or a wave.  Because it holds all of them, a `List` or a wave ends every
session opened before it, so a session still running was opened after the last of them.
-/

namespace ApiWatch.Sessions

open ApiWatch.Go ApiWatch.Metav1 ApiWatch.Catalog

variable {cfg : Config}

/-- The `session`-th session's cancel function has been called. -/
def CancelledAt (sessions : List Session) (session : Nat) : Prop :=
  ∃ entry, sessions[session]? = some entry ∧ entry.cancelled = true

theorem cancelledAt_cancelSession {sessions : List Session} {session : Nat}
    (below : session < sessions.length) :
    CancelledAt (cancelSession sessions session) session :=
  ⟨{ sessions[session] with cancelled := true }, by simp [Catalog.cancelSession, below], rfl⟩

theorem CancelledAt.cancelSession {sessions : List Session} {session : Nat}
    (cancelled : CancelledAt sessions session) (other : Nat) :
    CancelledAt (cancelSession sessions other) session := by
  obtain ⟨entry, found, flag⟩ := cancelled
  by_cases here : other = session
  · subst here
    exact cancelledAt_cancelSession (List.getElem?_eq_some_iff.1 found).1
  · exact ⟨entry, by simp [Catalog.cancelSession, List.getElem?_modify_ne _ _ here, found], flag⟩

theorem CancelledAt.foldl {sessions : List Session} {session : Nat}
    (cancelled : CancelledAt sessions session) (ids : List Nat) :
    CancelledAt (ids.foldl Catalog.cancelSession sessions) session := by
  induction ids generalizing sessions with
  | nil => exact cancelled
  | cons other rest ih => exact ih (cancelled.cancelSession other)

theorem CancelledAt.append {sessions : List Session} {session : Nat}
    (cancelled : CancelledAt sessions session) (more : List Session) :
    CancelledAt (sessions ++ more) session := by
  obtain ⟨entry, found, flag⟩ := cancelled
  exact ⟨entry, by rw [List.getElem?_append_left (List.getElem?_eq_some_iff.1 found).1, found],
    flag⟩

@[simp]
theorem length_foldl_cancelSession (sessions : List Session) (ids : List Nat) :
    (ids.foldl Catalog.cancelSession sessions).length = sessions.length := by
  induction ids generalizing sessions with
  | nil => rfl
  | cons other rest ih => simp [ih, Catalog.cancelSession]

/-- Calling the cancel functions `ids` cancels each of those sessions. -/
theorem cancelledAt_foldl {sessions : List Session} {ids : List Nat} {session : Nat}
    (mem : session ∈ ids) (below : session < sessions.length) :
    CancelledAt (ids.foldl Catalog.cancelSession sessions) session := by
  induction ids generalizing sessions with
  | nil => cases mem
  | cons other rest ih =>
    rw [List.foldl_cons]
    rcases List.mem_cons.1 mem with rfl | mem
    · exact (cancelledAt_cancelSession below).foldl rest
    · exact ih mem (by simpa [Catalog.cancelSession] using below)

/-! ## What a step does to the sessions -/

/-- A step leaves the sessions and `rlw.cancels`, opens a session and registers its cancel
function, calls one cancel function, or calls all of them. -/
theorem apply_sessions {rt rt' : Runtime} {now : Nat} {action : Action}
    (h : apply cfg rt now action = some rt') :
    (rt'.sessions = rt.sessions ∧ rt'.cancels = rt.cancels) ∨
    (∃ deadline, rt'.sessions = rt.sessions ++ [⟨false, deadline⟩] ∧
      rt'.cancels = rt.cancels ++ [rt.sessions.length]) ∨
    (∃ session, rt'.sessions = Catalog.cancelSession rt.sessions session ∧
      rt'.cancels = rt.cancels) ∨
    (rt'.sessions = cancelAll rt ∧ rt'.cancels = rt.cancels) := by
  cases apply_effect h
  case watchOpens => exact .inr (.inl ⟨_, rfl, rfl⟩)
  case stop => exact .inr (.inr (.inl ⟨_, rfl, rfl⟩))
  case listCount | schedulerWave => exact .inr (.inr (.inr ⟨rfl, rfl⟩))
  all_goals exact .inl ⟨rfl, rfl⟩

/-- The first critical section of `List` and a relist wave call every cancel function. -/
theorem step_ends {rt rt' : Runtime} {event : Event} (h : step cfg rt event = some rt')
    (ends : event.action.startsList ∨ Wave rt event) : rt'.sessions = cancelAll rt := by
  have applied := (step_eq_some.1 h).2
  rcases ends with starts | ⟨lock, due, reached⟩
  · cases action : event.action <;> simp [action, Action.startsList] at starts
    rw [action, apply_listCount] at applied
    rw [applied]
    rfl
  · rw [lock, apply_schedulerLock] at applied
    rw [applied.2]
    simp only [relistCheck, due, if_true, if_neg (Nat.not_lt.2 reached)]
    rfl

/-! ## `rlw.cancels` holds every session ever opened -/

/-- `rlw.cancels` holds the cancel function of every session opened so far, in order. -/
def Registered (rt : Runtime) : Prop := rt.cancels = List.range rt.sessions.length

theorem registered_init : Registered init := rfl

theorem Registered.step {rt rt' : Runtime} {event : Event} (registered : Registered rt)
    (h : step cfg rt event = some rt') : Registered rt' := by
  unfold Registered at registered ⊢
  rcases apply_sessions (step_eq_some.1 h).2 with
    ⟨sessions, cancels⟩ | ⟨_, sessions, cancels⟩ | ⟨_, sessions, cancels⟩ | ⟨sessions, cancels⟩ <;>
    rw [sessions, cancels]
  · exact registered
  · simp [registered, List.range_succ]
  · simpa [Catalog.cancelSession] using registered
  · simpa [cancelAll] using registered

theorem step_cancels_grow {rt rt' : Runtime} {event : Event}
    (h : step cfg rt event = some rt') : rt.cancels <+: rt'.cancels := by
  rcases apply_sessions (step_eq_some.1 h).2 with
    ⟨-, cancels⟩ | ⟨_, -, cancels⟩ | ⟨_, -, cancels⟩ | ⟨-, cancels⟩
  · exact cancels ▸ List.prefix_refl _
  · exact cancels ▸ List.prefix_append _ _
  · exact cancels ▸ List.prefix_refl _
  · exact cancels ▸ List.prefix_refl _

theorem exec_registered {start rt : Runtime} {events : List Event}
    (run : exec cfg start events = some rt) (registered : Registered start) :
    Registered rt ∧ start.cancels <+: rt.cancels :=
  ⟨exec_preserves Registered (fun registered stepped => registered.step stepped) run registered,
    exec_preserves (fun rt => start.cancels <+: rt.cancels)
      (fun grown stepped => grown.trans (step_cancels_grow stepped)) run (List.prefix_refl _)⟩

/--
`rlw.cancels` only grows: in every reachable state it holds the cancel function of every
session a successful `Watch` opened, in the order they were opened, whether the session is
still open or not, and every earlier state's `rlw.cancels` is a prefix of it.
-/
theorem cancels_hold_every_session {events : List Event} {rt : Runtime}
    (run : exec cfg init events = some rt) :
    rt.cancels = List.range rt.sessions.length ∧
      ∀ pre post mid, events = pre ++ post → exec cfg init pre = some mid →
        mid.cancels <+: rt.cancels := by
  refine ⟨(exec_registered run registered_init).1, fun pre post mid split ran => ?_⟩
  rw [split] at run
  obtain ⟨mid', ran', rest⟩ := exec_append_eq_some run
  obtain rfl := Option.some.inj (ran.symm.trans ran')
  exact (exec_registered rest (exec_registered ran registered_init).1).2

/-- A `Watch`, a `List` that ends its session, and a second `Watch` at the new version. -/
theorem cancels_hold_every_session_rewatch :
    let events : List Event :=
      [⟨0, .watch ⟨"1", some (Int64.wrap 60)⟩⟩, ⟨1, .listCount⟩, ⟨1, .listQuery 0⟩,
        ⟨1, .listEnumerate 0 Enumerate.IterationOrder.stored⟩, ⟨2, .watch ⟨"2", some (Int64.wrap 60)⟩⟩]
    ∃ rt, exec ⟨"kind", true, fun _ => ⟨[⟨"", "v1"⟩], [], []⟩⟩ init events = some rt ∧
      rt.cancels = List.range rt.sessions.length ∧
      ∀ pre post mid, events = pre ++ post →
        exec ⟨"kind", true, fun _ => ⟨[⟨"", "v1"⟩], [], []⟩⟩ init pre = some mid →
          mid.cancels <+: rt.cancels :=
  ⟨_, rfl, cancels_hold_every_session (by rfl)⟩

/-- A stopped session keeps its cancel function in `rlw.cancels`: after one `Watch` and its
`Stop`, `rlw.cancels` is longer than the list of open sessions. -/
theorem cancels_outlive_sessions :
    ∃ rt, exec ⟨"kind", true, fun _ => ⟨[], [], []⟩⟩ init
        [⟨0, .watch ⟨"1", some (Int64.wrap 60)⟩⟩, ⟨1, .stop 0⟩] = some rt ∧
      rt.sessions.countP (fun session => decide (session.Open rt.ctxDone rt.now)) <
        rt.cancels.length :=
  ⟨_, rfl, by decide⟩

/-! ## A `List` or a relist wave ends every session opened before it -/

theorem CancelledAt.step {rt rt' : Runtime} {event : Event} {session : Nat}
    (cancelled : CancelledAt rt.sessions session) (h : step cfg rt event = some rt') :
    CancelledAt rt'.sessions session := by
  rcases apply_sessions (step_eq_some.1 h).2 with
    ⟨sessions, -⟩ | ⟨_, sessions, -⟩ | ⟨other, sessions, -⟩ | ⟨sessions, -⟩ <;> rw [sessions]
  · exact cancelled
  · exact cancelled.append _
  · exact cancelled.cancelSession other
  · exact cancelled.foldl _

theorem CancelledAt.exec {start rt : Runtime} {events : List Event} {session : Nat}
    (cancelled : CancelledAt start.sessions session) (run : exec cfg start events = some rt) :
    CancelledAt rt.sessions session :=
  exec_preserves (fun rt => CancelledAt rt.sessions session)
    (fun cancelled stepped => cancelled.step stepped) run cancelled

/-- A step that ends sessions cancels every session opened before it. -/
theorem cancelledAt_of_ends {rt rt' : Runtime} {event : Event} (registered : Registered rt)
    (h : step cfg rt event = some rt') (ends : event.action.startsList ∨ Wave rt event)
    {session : Nat} (below : session < rt.sessions.length) : CancelledAt rt'.sessions session := by
  rw [step_ends h ends, cancelAll]
  exact cancelledAt_foldl (by rw [show rt.cancels = _ from registered]; exact List.mem_range.2 below)
    below

/-- The sessions of a run and the `Watch` that fails its version check. -/
structure SessionLaw (cfg : Config) (events : List Event) (rt : Runtime) : Prop where
  /-- A session not cancelled at the end of the run was opened after every `List` and every
  relist wave of the run. -/
  openedAfterEnds : ∀ pre event post before, events = pre ++ event :: post →
    exec cfg init pre = some before → (event.action.startsList ∨ Wave before event) →
      ∀ session entry, rt.sessions[session]? = some entry → entry.cancelled = false →
        before.sessions.length ≤ session
  /-- A `Watch` that fails its version check changes nothing but the clock. -/
  failedWatchInert : ∀ (before after : Runtime) (time : Nat) (opts : ListOptions),
    step cfg before ⟨time, .watch opts⟩ = some after →
      formatInt before.resourceVersionI ≠ opts.resourceVersion →
        after = { before with now := time }

theorem failed_watch_inert {before after : Runtime} {time : Nat} {opts : ListOptions}
    (h : step cfg before ⟨time, .watch opts⟩ = some after)
    (stale : formatInt before.resourceVersionI ≠ opts.resourceVersion) :
    after = { before with now := time } := by
  obtain ⟨_, found⟩ := apply_watch.1 (step_eq_some.1 h).2
  rcases watch_eq_some found with ⟨-, -, rfl⟩ | ⟨current, -⟩
  · rfl
  · exact absurd current stale

/--
In every run, a session whose context was not cancelled was opened by a `Watch` after the
first critical section of every `List` and after every relist wave; a `Watch` that fails its
version check opens no session and changes no field of the catalog.
-/
theorem sessions_follow_last_end {events : List Event} {rt : Runtime}
    (run : exec cfg init events = some rt) : SessionLaw cfg events rt := by
  refine ⟨fun pre event post before split ran ends session entry found live => ?_,
    fun _ _ _ _ => failed_watch_inert⟩
  rw [split, ← List.singleton_append, ← List.append_assoc] at run
  obtain ⟨after, ranAfter, rest⟩ := exec_append_eq_some run
  rw [exec_append_singleton, ran] at ranAfter
  refine Nat.le_of_not_lt fun below => ?_
  obtain ⟨entry', found', cancelled⟩ :=
    (cancelledAt_of_ends (exec_registered ran registered_init).1 ranAfter ends below).exec rest
  rw [found] at found'
  cases found'
  rw [live] at cancelled
  cases cancelled

/-- A `Watch`, a `List` that ends its session, and a second `Watch` at the new version. -/
theorem sessions_follow_last_end_rewatch :
    let events : List Event :=
      [⟨0, .watch ⟨"1", some (Int64.wrap 60)⟩⟩, ⟨1, .listCount⟩, ⟨1, .listQuery 0⟩,
        ⟨1, .listEnumerate 0 Enumerate.IterationOrder.stored⟩, ⟨2, .watch ⟨"2", some (Int64.wrap 60)⟩⟩]
    ∃ rt, exec ⟨"kind", true, fun _ => ⟨[⟨"", "v1"⟩], [], []⟩⟩ init events = some rt ∧
      SessionLaw ⟨"kind", true, fun _ => ⟨[⟨"", "v1"⟩], [], []⟩⟩ events rt :=
  ⟨_, rfl, sessions_follow_last_end (by rfl)⟩

/-! ## The deadline of a session

`Watch` gives its session the context `context.WithTimeout(rlw.ctx, timeout)` with
`timeout := time.Duration(*opts.TimeoutSeconds) * time.Second`, an `int64` product of
nanoseconds that wraps silently. -/

theorem secondInt64_toInt : secondInt64.toInt = second := rfl

/-- The session a successful `Watch` opens, with the deadline its timeout gives. -/
theorem watch_session {rt rt' : Runtime} {now : Nat} {opts : ListOptions} {timeoutSeconds : Int64}
    {session : Nat} (opened : watch cfg rt now opts = some (.ok session, rt'))
    (given : opts.timeoutSeconds = some timeoutSeconds) :
    rt'.sessions[session]? = some ⟨false, now + (timeoutSeconds.mul secondInt64).toInt⟩ := by
  dsimp only [watch] at opened
  split at opened
  · cases opened
  · rw [given, Option.map_some'] at opened
    obtain ⟨returned, rfl⟩ := Prod.mk.inj_iff.1 (Option.some.inj opened)
    cases returned
    simp

/-- The session `Watch` opens times out `TimeoutSeconds` seconds after it opens, as long as
that many nanoseconds fit in an `int64`.  Beyond, the product wraps: from 9223372037 to
18446744073 seconds it wraps to a negative duration, and the session is over before it starts. -/
theorem watch_timeout_wraps {rt rt' : Runtime} {now : Nat} {opts : ListOptions}
    {timeoutSeconds : Int64} {session : Nat}
    (opened : watch cfg rt now opts = some (.ok session, rt'))
    (given : opts.timeoutSeconds = some timeoutSeconds) :
    (-9223372036 ≤ timeoutSeconds.toInt → timeoutSeconds.toInt ≤ 9223372036 →
      rt'.sessions[session]? = some ⟨false, now + timeoutSeconds.toInt * second⟩) ∧
    (9223372037 ≤ timeoutSeconds.toInt → timeoutSeconds.toInt ≤ 18446744073 →
      ∃ deadline, rt'.sessions[session]? = some ⟨false, deadline⟩ ∧
        ∀ ctxDone later, now ≤ later → ¬ Session.Open ⟨false, deadline⟩ ctxDone later) := by
  have found := watch_session opened given
  simp only [Int64.mul, secondInt64_toInt, second] at found
  refine ⟨fun low high => ?_, fun low high => ⟨_, found, fun ctxDone later early live => ?_⟩⟩
  · rw [found, Int64.wrap_toInt (by omega) (by omega), second]
  · have before := live.2.1
    dsimp only at before
    rw [Int64.wrap_toInt_sub (by omega) (by omega)] at before
    omega

/-- A one-minute watch ends a minute after it opens, and one of 9223372037 seconds is over as
it opens. -/
theorem watch_timeout_wraps_minute :
    (∃ rt', watch ⟨"kind", true, fun _ => ⟨[], [], []⟩⟩ init 0 ⟨"1", some (Int64.wrap 60)⟩ =
        some (.ok 0, rt') ∧
      rt'.sessions[0]? = some ⟨false, ((0 : Nat) : Int) + (Int64.wrap 60).toInt * second⟩) ∧
    ∃ rt', watch ⟨"kind", true, fun _ => ⟨[], [], []⟩⟩ init 0
        ⟨"1", some (Int64.wrap 9223372037)⟩ = some (.ok 0, rt') ∧
      ∃ deadline, rt'.sessions[0]? = some ⟨false, deadline⟩ ∧
        ∀ ctxDone later, 0 ≤ later → ¬ Session.Open ⟨false, deadline⟩ ctxDone later :=
  ⟨⟨_, rfl, (@watch_timeout_wraps ⟨"kind", true, fun _ => ⟨[], [], []⟩⟩ init _ 0
      ⟨"1", some (Int64.wrap 60)⟩ (Int64.wrap 60) 0 (by rfl) rfl).1 (by decide) (by decide)⟩,
    ⟨_, rfl, (@watch_timeout_wraps ⟨"kind", true, fun _ => ⟨[], [], []⟩⟩ init _ 0
      ⟨"1", some (Int64.wrap 9223372037)⟩ (Int64.wrap 9223372037) 0 (by rfl) rfl).2 (by decide)
      (by decide)⟩⟩

end ApiWatch.Sessions
