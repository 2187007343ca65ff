import ApiWatch.Enumerate

/-!
# The catalog as a state machine

A `resourcesListWatcher` is shared by the informer's reflector, which calls `List` and
`Watch`, by the event handlers of the invalidation notifiers and whoever holds the returned
`Invalidatable`, which call `InvalidateWithDefiner` and `Invalidate`, and by the relist
scheduler goroutine that `NewAPIResourceInformer` starts.  They meet at `rlw.mutex`.  Each
critical section is one atomic step here, and so is each step a goroutine takes outside the
mutex that another can observe: a query of the discovery cache, a session's `Stop`, the
scheduler's `select`, the end of its `time.Sleep`, and the end of the catalog's context.
Steps interleave in any order.  Every event carries the time at which it happens, and time
never goes back.

`rlw.cond.Wait()` releases the mutex and parks the scheduler; `Broadcast` wakes it only if
it is parked at that moment, and nothing else does.  The memory discovery cache is its
validity, its data and the time it last went to the underlying client, a function of time: a
query on an invalid cache fetches, and the cache becomes valid only if the client answered
some group.  A panic ends the run: its step is not enabled.
-/

namespace ApiWatch.Catalog

open ApiWatch.Go ApiWatch.Metav1 ApiWatch.Schema ApiWatch.DefinerIndex ApiWatch.Enumerate

/-- `time.Second`: times and durations are nanoseconds. -/
def second : Nat := 1000000000

/-- The delay `invalidateWithDefinerLocked` puts before the next relist: `time.Second * 20`. -/
def relistDelay : Nat := 20 * second

/-- The memory discovery cache of client-go's `memCacheClient`: `cacheValid`, the group list
and resource lists it holds, and the time it last went to the client. -/
structure MemCache where
  valid : Bool
  data : Discovery
  fetchedAt : Nat

/-- `cachediscovery.NewMemCacheClient(client)` starts empty. -/
def MemCache.empty : MemCache := ⟨false, .none, 0⟩

/-- `Invalidate()` on the cache: `cacheValid` is cleared and the group list and resource
lists are dropped. -/
def MemCache.invalidate (cache : MemCache) : MemCache := { cache with valid := false, data := .none }

/-- A query of the cache at `now`, as client-go's `memCacheClient` answers it: an invalid
cache first calls `refreshLocked`, which asks the client for its groups and their resources.
When the client errs or answers no groups, `refreshLocked` returns with `cacheValid` still
false, and the query answers from the empty cache; a client error reads here as an empty group
list.  Otherwise the cache keeps the answer and becomes valid. -/
def MemCache.query (cache : MemCache) (server : Nat → Discovery) (now : Nat) : MemCache :=
  if cache.valid then cache
  else if (server now).groups.isEmpty then ⟨false, .none, now⟩
  else ⟨true, server now, now⟩

/-- A watch session: whether its `cancel` was called, and the deadline of the context
`context.WithTimeout` gives it. -/
structure Session where
  cancelled : Bool
  deadline : Int
deriving DecidableEq, Repr

/-- The session's context is not done: not cancelled, not timed out, and `rlw.ctx` not
done. -/
def Session.Open (session : Session) (ctxDone : Bool) (now : Nat) : Prop :=
  session.cancelled = false ∧ (now : Int) < session.deadline ∧ ctxDone = false

instance (session : Session) (ctxDone : Bool) (now : Nat) :
    Decidable (session.Open ctxDone now) :=
  inferInstanceAs (Decidable (_ ∧ _))

/-- Where a `List` call is: past its first critical section, past its discovery query
(with the data and the time the cache fetched them), or returned. -/
inductive ListPhase where
  | counted
  | fetched (data : Discovery) (fetchedAt : Nat)
  | done (result : Ksmetav1a1.APIResourceList) (fetchedAt : Nat)

/-- A `List` call and the version its first critical section returned. -/
structure ListCall where
  version : Int64
  phase : ListPhase

/-- The scheduler goroutine's place in its loop. -/
inductive Scheduler where
  /-- At the `select` on `ctx.Done()` that starts an iteration. -/
  | top
  /-- Past the `select`, about to take the mutex. -/
  | ready
  /-- In `rlw.cond.Wait()`. -/
  | parked
  /-- Woken by a broadcast, about to take the mutex back. -/
  | signalled
  /-- In `time.Sleep(wait)`, which ends at `wakeAt`. -/
  | sleeping (wakeAt : Nat)
  /-- Returned. -/
  | exited
deriving DecidableEq, Repr

/-- `rlw.cond.Broadcast()`: a parked scheduler is woken, any other is not affected. -/
def Scheduler.broadcast : Scheduler → Scheduler
  | .parked => .signalled
  | other => other

/-- The catalog's fields that the model reads, the sessions and `List` calls in flight, and
the scheduler goroutine. -/
structure Runtime where
  now : Nat
  ctxDone : Bool
  resourceVersionI : Int64
  needRelist : Bool
  relistAfter : Nat
  cancels : List Nat
  index : Index
  cache : MemCache
  sessions : List Session
  calls : List ListCall
  scheduler : Scheduler

/-- What `NewAPIResourceInformer` is given and keeps fixed. -/
structure Config where
  clusterName : String
  includeSubresources : Bool
  server : Nat → Discovery

/-- The catalog `NewAPIResourceInformer` returns, with its scheduler about to start. -/
def init : Runtime where
  now := 0
  ctxDone := false
  resourceVersionI := Int64.one
  needRelist := false
  relistAfter := 0
  cancels := []
  index := Index.empty
  cache := MemCache.empty
  sessions := []
  calls := []
  scheduler := .top

/-! ## Critical sections -/

/-- The object and supplier a notifier hands `InvalidateWithDefiner`: the kind the supplier
reads off the object, the object's name (none when the object is not a `metav1.Object`), and
what the supplier's enumerator yields. -/
structure Notification where
  gvk : GroupVersionKind
  name : Option String
  defined : List GroupVersionResource

/-- `invalidateWithDefinerLocked(obj, supplier, set)`, with `definer` none when `obj` or
`supplier` is nil; `none` is its panic, at the assertion `obj.(metav1.Object)` or on an empty
API version or kind. -/
def invalidateWithDefinerLocked (rt : Runtime) (now : Nat) (definer : Option Notification)
    (set : Bool) : Option Runtime :=
  let rt := { rt with
    resourceVersionI := rt.resourceVersionI.succ
    relistAfter := now + relistDelay
    needRelist := true
    cache := rt.cache.invalidate
    scheduler := rt.scheduler.broadcast }
  match definer with
  | none => some rt
  | some note =>
    match note.name with
    | none => none
    | some name =>
      let (apiVersion, kind) := note.gvk.toAPIVersionAndKind
      if apiVersion = "" ∨ kind = "" then none
      else
        some { rt with
          index := setDefinerLocked rt.index ⟨apiVersion, kind, name⟩
            (if set then note.defined else []) }

/-- Calling the cancel function of the `session`-th session. -/
def cancelSession (sessions : List Session) (session : Nat) : List Session :=
  sessions.modify (fun entry => { entry with cancelled := true }) session

/-- `for _, cancel := range rlw.cancels { cancel() }`. -/
def cancelAll (rt : Runtime) : List Session :=
  rt.cancels.foldl cancelSession rt.sessions

/-- `time.Second` as an `int64` duration. -/
def secondInt64 : Int64 := Int64.wrap second

/-- The `ResourceExpired` error of a `Watch` at a version that is not the current one. -/
def expiredError (clusterName requested current : String) : StatusError :=
  .resourceExpired ("Requested version " ++ requested ++ ", have version " ++ current ++
    " in cluster " ++ clusterName)

/-- `Watch(opts)` at `now`: the error, or the index of the session it opens, with the new
state; `none` is its panic on a nil `TimeoutSeconds`. -/
def watch (cfg : Config) (rt : Runtime) (now : Nat) (opts : ListOptions) :
    Option (Except StatusError Nat × Runtime) :=
  let resourceVersionS := formatInt rt.resourceVersionI
  if resourceVersionS ≠ opts.resourceVersion then
    some (.error (expiredError cfg.clusterName opts.resourceVersion resourceVersionS), rt)
  else
    opts.timeoutSeconds.map fun timeoutSeconds =>
      let timeout := Int64.mul timeoutSeconds secondInt64
      (.ok rt.sessions.length,
        { rt with
          sessions := rt.sessions ++ [⟨false, now + timeout.toInt⟩]
          cancels := rt.cancels ++ [rt.sessions.length] })

/-- The first critical section of `List`: increment the version and cancel every session in
`rlw.cancels`. -/
def listCount (rt : Runtime) : Runtime :=
  let resourceVersionI := rt.resourceVersionI.succ
  { rt with
    resourceVersionI := resourceVersionI
    sessions := cancelAll rt
    calls := rt.calls ++ [⟨resourceVersionI, .counted⟩] }

/-- The discovery query of the `call`-th `List`, through the cache. -/
def listQuery (cfg : Config) (rt : Runtime) (now : Nat) (call : Nat) : Option Runtime :=
  match rt.calls[call]? with
  | some ⟨version, .counted⟩ =>
    let cache := rt.cache.query cfg.server now
    some { rt with
      cache := cache
      calls := rt.calls.set call ⟨version, .fetched cache.data cache.fetchedAt⟩ }
  | _ => none

/-- The second critical section of the `call`-th `List`: the items, stamped with the
version the first one returned; `none` is a panic of `am.insert`. -/
def listEnumerate (cfg : Config) (rt : Runtime) (call : Nat) (order : IterationOrder) :
    Option Runtime :=
  match rt.calls[call]? with
  | some ⟨version, .fetched data fetchedAt⟩ =>
    let resourceVersionS := formatInt version
    (listItems cfg.includeSubresources rt.index order resourceVersionS data).map fun items =>
      { rt with calls := rt.calls.set call ⟨version, .done ⟨resourceVersionS, items⟩ fetchedAt⟩ }
  | _ => none

/-- The scheduler's critical section: sleep until the relist is due, relist (cancel every
session and clear `needRelist`), or wait for a broadcast. -/
def relistCheck (rt : Runtime) (now : Nat) : Runtime :=
  if rt.needRelist then
    if now < rt.relistAfter then { rt with scheduler := .sleeping (now + (rt.relistAfter - now)) }
    else { rt with sessions := cancelAll rt, needRelist := false, scheduler := .top }
  else { rt with scheduler := .parked }

/-! ## Steps and runs -/

/-- One atomic step of one goroutine. -/
inductive Action where
  /-- `Invalidate()`. -/
  | invalidate
  /-- `InvalidateWithDefiner(obj, supplier, set)`. -/
  | invalidateWithDefiner (definer : Option Notification) (set : Bool)
  /-- `Watch(opts)`. -/
  | watch (opts : ListOptions)
  /-- `Stop()` on the `session`-th watch. -/
  | stop (session : Nat)
  /-- A `List` call's first critical section. -/
  | listCount
  /-- The `call`-th `List`'s discovery query. -/
  | listQuery (call : Nat)
  /-- The `call`-th `List`'s second critical section, with the orders of its map loops. -/
  | listEnumerate (call : Nat) (order : IterationOrder)
  /-- The scheduler's `select` on `ctx.Done()`. -/
  | schedulerSelect
  /-- The scheduler's critical section. -/
  | schedulerLock
  /-- A woken scheduler takes the mutex back and returns from `cond.Wait()`. -/
  | schedulerRelock
  /-- The scheduler's `time.Sleep` ends. -/
  | schedulerWake
  /-- The catalog's context is done. -/
  | cancelContext

/-- An action and the time it happens at. -/
structure Event where
  time : Nat
  action : Action

/-- The critical sections that run `invalidateWithDefinerLocked`. -/
def Action.invalidates : Action → Bool
  | .invalidate | .invalidateWithDefiner _ _ => true
  | _ => false

/-- The first critical section of a `List`. -/
def Action.startsList : Action → Bool
  | .listCount => true
  | _ => false

/-- The critical sections that increment `resourceVersionI`. -/
def Action.bumpsVersion (action : Action) : Bool := action.startsList || action.invalidates

/-- The scheduler goroutine's own steps. -/
def Action.ofScheduler : Action → Bool
  | .schedulerSelect | .schedulerLock | .schedulerRelock | .schedulerWake => true
  | _ => false

/-- The step is a relist wave: the scheduler's critical section finds the relist due. -/
def Wave (rt : Runtime) (event : Event) : Prop :=
  event.action = .schedulerLock ∧ rt.needRelist = true ∧ rt.relistAfter ≤ event.time

/-- The action at `now`, from a state whose clock already reads `now`. -/
def apply (cfg : Config) (rt : Runtime) (now : Nat) : Action → Option Runtime
  | .invalidate => invalidateWithDefinerLocked rt now none false
  | .invalidateWithDefiner definer set => invalidateWithDefinerLocked rt now definer set
  | .watch opts => (watch cfg rt now opts).map (·.2)
  | .stop session =>
    if session < rt.sessions.length then
      some { rt with sessions := cancelSession rt.sessions session }
    else none
  | .listCount => some (listCount rt)
  | .listQuery call => listQuery cfg rt now call
  | .listEnumerate call order => listEnumerate cfg rt call order
  | .schedulerSelect =>
    if rt.scheduler = .top then
      some { rt with scheduler := if rt.ctxDone then .exited else .ready }
    else none
  | .schedulerLock => if rt.scheduler = .ready then some (relistCheck rt now) else none
  | .schedulerRelock =>
    if rt.scheduler = .signalled then some { rt with scheduler := .top } else none
  | .schedulerWake =>
    match rt.scheduler with
    | .sleeping wakeAt => if wakeAt ≤ now then some { rt with scheduler := .top } else none
    | _ => none
  | .cancelContext => some { rt with ctxDone := true }

/-- One step: the event may not happen before the clock. -/
def step (cfg : Config) (rt : Runtime) (event : Event) : Option Runtime :=
  if event.time < rt.now then none
  else apply cfg { rt with now := event.time } event.time event.action

/-- A run of events from a state; `none` when one of them is not enabled. -/
def exec (cfg : Config) (rt : Runtime) : List Event → Option Runtime
  | [] => some rt
  | event :: rest => (step cfg rt event).bind fun next => exec cfg next rest

/-- The states some run from `init` reaches. -/
def Reachable (cfg : Config) (rt : Runtime) : Prop :=
  ∃ events, exec cfg init events = some rt

@[simp]
theorem exec_nil (cfg : Config) (rt : Runtime) : exec cfg rt [] = some rt := rfl

theorem exec_append (cfg : Config) (rt : Runtime) (first second : List Event) :
    exec cfg rt (first ++ second) = (exec cfg rt first).bind fun mid => exec cfg mid second := by
  induction first generalizing rt with
  | nil => rfl
  | cons event rest ih =>
    simp only [List.cons_append, exec]
    cases step cfg rt event <;> simp [ih]

theorem exec_append_singleton (cfg : Config) (rt : Runtime) (events : List Event)
    (event : Event) :
    exec cfg rt (events ++ [event]) = (exec cfg rt events).bind fun mid => step cfg mid event := by
  rw [exec_append]
  congr 1
  funext mid
  simp only [exec]
  cases step cfg mid event <;> rfl

theorem step_eq_some {cfg : Config} {rt rt' : Runtime} {event : Event} :
    step cfg rt event = some rt' ↔
      rt.now ≤ event.time ∧
        apply cfg { rt with now := event.time } event.time event.action = some rt' := by
  unfold step
  split <;> simp_all [Nat.not_lt]

/-- A property every step keeps holds at the end of every run that starts with it. -/
theorem exec_preserves {cfg : Config} (holds : Runtime → Prop)
    (preserved : ∀ {rt rt' : Runtime} {event : Event}, holds rt → step cfg rt event = some rt' →
      holds rt')
    {start rt : Runtime} {events : List Event} (run : exec cfg start events = some rt)
    (initially : holds start) : holds rt := by
  induction events generalizing start with
  | nil => cases run; exact initially
  | cons event rest ih =>
    obtain ⟨next, stepped, run⟩ := Option.bind_eq_some.1 run
    exact ih run (preserved initially stepped)

/-- A property of a run from `init` and the state it ends in, which holds of the empty run
and which every step keeps, holds of every run. -/
theorem exec_preserves_history {cfg : Config} (holds : List Event → Runtime → Prop)
    (initially : holds [] init)
    (preserved : ∀ {events : List Event} {rt rt' : Runtime} {event : Event}, holds events rt →
      step cfg rt event = some rt' → holds (events ++ [event]) rt')
    {events : List Event} {rt : Runtime} (run : exec cfg init events = some rt) :
    holds events rt := by
  induction events using List.reverseRecOn generalizing rt with
  | nil => cases run; exact initially
  | append_singleton pre event ih =>
    rw [exec_append_singleton] at run
    obtain ⟨before, ran, stepped⟩ := Option.bind_eq_some.1 run
    exact preserved (ih ran) stepped

theorem exec_append_eq_some {cfg : Config} {start rt : Runtime} {first second : List Event}
    (run : exec cfg start (first ++ second) = some rt) :
    ∃ mid, exec cfg start first = some mid ∧ exec cfg mid second = some rt := by
  rw [exec_append] at run
  exact Option.bind_eq_some.1 run

/-! ## What each critical section changes -/

theorem invalidateWithDefinerLocked_eq_some {rt rt' : Runtime} {now : Nat}
    {definer : Option Notification} {set : Bool}
    (h : invalidateWithDefinerLocked rt now definer set = some rt') :
    ∃ index, rt' = { rt with
      resourceVersionI := rt.resourceVersionI.succ
      relistAfter := now + relistDelay
      needRelist := true
      cache := rt.cache.invalidate
      scheduler := rt.scheduler.broadcast
      index := index } := by
  unfold invalidateWithDefinerLocked at h
  split at h
  · exact ⟨rt.index, (Option.some.inj h).symm⟩
  · split at h
    · cases h
    · split at h
      split at h
      · cases h
      · exact ⟨_, (Option.some.inj h).symm⟩

theorem watch_eq_some {cfg : Config} {rt rt' : Runtime} {now : Nat} {opts : ListOptions}
    {result : Except StatusError Nat} (h : watch cfg rt now opts = some (result, rt')) :
    (formatInt rt.resourceVersionI ≠ opts.resourceVersion ∧
      result = .error (expiredError cfg.clusterName opts.resourceVersion
        (formatInt rt.resourceVersionI)) ∧ rt' = rt) ∨
    (formatInt rt.resourceVersionI = opts.resourceVersion ∧ result = .ok rt.sessions.length ∧
      ∃ deadline, rt' = { rt with
        sessions := rt.sessions ++ [⟨false, deadline⟩]
        cancels := rt.cancels ++ [rt.sessions.length] }) := by
  dsimp only [watch] at h
  split at h
  · simp only [Option.some.injEq, Prod.mk.injEq] at h
    exact .inl ⟨‹_›, h.1.symm, h.2.symm⟩
  · obtain ⟨_, -, same⟩ := Option.map_eq_some'.1 h
    simp only [Prod.mk.injEq] at same
    exact .inr ⟨not_not.1 ‹_›, same.1.symm, _, same.2.symm⟩

theorem listQuery_eq_some {cfg : Config} {rt rt' : Runtime} {now call : Nat}
    (h : listQuery cfg rt now call = some rt') :
    ∃ version, rt.calls[call]? = some ⟨version, .counted⟩ ∧
      rt' = { rt with
        cache := rt.cache.query cfg.server now
        calls := rt.calls.set call ⟨version, .fetched (rt.cache.query cfg.server now).data
          (rt.cache.query cfg.server now).fetchedAt⟩ } := by
  unfold listQuery at h
  split at h
  · exact ⟨_, ‹_›, (Option.some.inj h).symm⟩
  · cases h

theorem listEnumerate_eq_some {cfg : Config} {rt rt' : Runtime} {call : Nat}
    {order : IterationOrder} (h : listEnumerate cfg rt call order = some rt') :
    ∃ version data fetchedAt items, rt.calls[call]? = some ⟨version, .fetched data fetchedAt⟩ ∧
      listItems cfg.includeSubresources rt.index order (formatInt version) data = some items ∧
      rt' = { rt with
        calls := rt.calls.set call ⟨version, .done ⟨formatInt version, items⟩ fetchedAt⟩ } := by
  unfold listEnumerate at h
  split at h
  · obtain ⟨items, found, rfl⟩ := Option.map_eq_some'.1 h
    exact ⟨_, _, _, items, ‹_›, found, rfl⟩
  · cases h

/-! ## The steps each action can take -/

section Apply

variable {cfg : Config} {rt rt' : Runtime} {now : Nat}

@[simp]
theorem apply_watch {opts : ListOptions} :
    apply cfg rt now (.watch opts) = some rt' ↔ ∃ result, watch cfg rt now opts = some (result, rt') := by
  show (watch cfg rt now opts).map (·.2) = some rt' ↔ _
  rw [Option.map_eq_some']
  exact ⟨fun ⟨⟨result, _⟩, found, same⟩ => ⟨result, same ▸ found⟩,
    fun ⟨_, found⟩ => ⟨_, found, rfl⟩⟩

@[simp]
theorem apply_stop {session : Nat} :
    apply cfg rt now (.stop session) = some rt' ↔
      session < rt.sessions.length ∧ rt' = { rt with sessions := cancelSession rt.sessions session } := by
  simp only [apply]
  split <;> simp_all [eq_comm (a := rt')]

@[simp]
theorem apply_listCount : apply cfg rt now .listCount = some rt' ↔ rt' = listCount rt := by
  simp [apply, eq_comm (a := rt')]

@[simp]
theorem apply_schedulerSelect :
    apply cfg rt now .schedulerSelect = some rt' ↔
      rt.scheduler = .top ∧
        rt' = { rt with scheduler := if rt.ctxDone then .exited else .ready } := by
  simp only [apply]
  split <;> simp_all [eq_comm (a := rt')]

@[simp]
theorem apply_schedulerLock :
    apply cfg rt now .schedulerLock = some rt' ↔
      rt.scheduler = .ready ∧ rt' = relistCheck rt now := by
  simp only [apply]
  split <;> simp_all [eq_comm (a := rt')]

@[simp]
theorem apply_schedulerRelock :
    apply cfg rt now .schedulerRelock = some rt' ↔
      rt.scheduler = .signalled ∧ rt' = { rt with scheduler := .top } := by
  simp only [apply]
  split <;> simp_all [eq_comm (a := rt')]

@[simp]
theorem apply_schedulerWake :
    apply cfg rt now .schedulerWake = some rt' ↔
      ∃ wakeAt, rt.scheduler = .sleeping wakeAt ∧ wakeAt ≤ now ∧
        rt' = { rt with scheduler := .top } := by
  simp only [apply]
  split <;> simp_all [eq_comm (a := rt')]

@[simp]
theorem apply_cancelContext :
    apply cfg rt now .cancelContext = some rt' ↔ rt' = { rt with ctxDone := true } := by
  simp [apply, eq_comm (a := rt')]

end Apply

/-! ## Everything a step can do

The transition table of the catalog: what each action does to the state, under the guard
that enables it, with the scheduler's critical section split by the branch it takes.  Every
invariant over runs is proved from this one case analysis. -/

/-- The state an action at `now` leads to from `rt`. -/
inductive Effect (cfg : Config) (rt : Runtime) (now : Nat) : Action → Runtime → Prop
  | invalidate :
    Effect cfg rt now .invalidate { rt with
      resourceVersionI := rt.resourceVersionI.succ
      relistAfter := now + relistDelay
      needRelist := true
      cache := rt.cache.invalidate
      scheduler := rt.scheduler.broadcast }
  /-- The index changes only when a definer comes with the call. -/
  | invalidateWithDefiner {definer : Option Notification} {set : Bool} (index : Index) :
    Effect cfg rt now (.invalidateWithDefiner definer set) { rt with
      resourceVersionI := rt.resourceVersionI.succ
      relistAfter := now + relistDelay
      needRelist := true
      cache := rt.cache.invalidate
      scheduler := rt.scheduler.broadcast
      index := index }
  /-- A `Watch` at a version other than the current one returns the error. -/
  | watchExpired {opts : ListOptions}
    (stale : formatInt rt.resourceVersionI ≠ opts.resourceVersion) :
    Effect cfg rt now (.watch opts) rt
  /-- A `Watch` at the current version opens a session and registers its cancel function. -/
  | watchOpens {opts : ListOptions}
    (current : formatInt rt.resourceVersionI = opts.resourceVersion) (deadline : Int) :
    Effect cfg rt now (.watch opts) { rt with
      sessions := rt.sessions ++ [⟨false, deadline⟩]
      cancels := rt.cancels ++ [rt.sessions.length] }
  | stop {session : Nat} (within : session < rt.sessions.length) :
    Effect cfg rt now (.stop session) { rt with sessions := cancelSession rt.sessions session }
  | listCount : Effect cfg rt now .listCount (listCount rt)
  | listQuery {call : Nat} {version : Int64}
    (counted : rt.calls[call]? = some ⟨version, .counted⟩) :
    Effect cfg rt now (.listQuery call) { rt with
      cache := rt.cache.query cfg.server now
      calls := rt.calls.set call ⟨version, .fetched (rt.cache.query cfg.server now).data
        (rt.cache.query cfg.server now).fetchedAt⟩ }
  | listEnumerate {call : Nat} {order : IterationOrder} {version : Int64} {data : Discovery}
    {fetchedAt : Nat} {items : List Ksmetav1a1.APIResource}
    (fetched : rt.calls[call]? = some ⟨version, .fetched data fetchedAt⟩)
    (listed : listItems cfg.includeSubresources rt.index order (formatInt version) data =
      some items) :
    Effect cfg rt now (.listEnumerate call order) { rt with
      calls := rt.calls.set call ⟨version, .done ⟨formatInt version, items⟩ fetchedAt⟩ }
  | schedulerSelect (top : rt.scheduler = .top) :
    Effect cfg rt now .schedulerSelect
      { rt with scheduler := if rt.ctxDone then .exited else .ready }
  /-- The scheduler's critical section finds a relist pending but not yet due. -/
  | schedulerSleep (ready : rt.scheduler = .ready) (pending : rt.needRelist = true)
    (early : now < rt.relistAfter) :
    Effect cfg rt now .schedulerLock
      { rt with scheduler := .sleeping (now + (rt.relistAfter - now)) }
  /-- The scheduler's critical section relists. -/
  | schedulerWave (ready : rt.scheduler = .ready) (pending : rt.needRelist = true)
    (due : rt.relistAfter ≤ now) :
    Effect cfg rt now .schedulerLock
      { rt with sessions := cancelAll rt, needRelist := false, scheduler := .top }
  /-- The scheduler's critical section finds no relist pending and waits. -/
  | schedulerPark (ready : rt.scheduler = .ready) (idle : rt.needRelist = false) :
    Effect cfg rt now .schedulerLock { rt with scheduler := .parked }
  | schedulerRelock (signalled : rt.scheduler = .signalled) :
    Effect cfg rt now .schedulerRelock { rt with scheduler := .top }
  | schedulerWake {wakeAt : Nat} (sleeping : rt.scheduler = .sleeping wakeAt)
    (woken : wakeAt ≤ now) :
    Effect cfg rt now .schedulerWake { rt with scheduler := .top }
  | cancelContext : Effect cfg rt now .cancelContext { rt with ctxDone := true }

theorem apply_effect {cfg : Config} {rt rt' : Runtime} {now : Nat} {action : Action}
    (h : apply cfg rt now action = some rt') : Effect cfg rt now action rt' := by
  cases action with
  | invalidate => obtain rfl := Option.some.inj h; exact .invalidate
  | invalidateWithDefiner =>
    obtain ⟨index, rfl⟩ := invalidateWithDefinerLocked_eq_some (by simpa only [apply] using h)
    exact .invalidateWithDefiner index
  | watch opts =>
    obtain ⟨_, found⟩ := apply_watch.1 h
    rcases watch_eq_some found with ⟨stale, -, rfl⟩ | ⟨current, -, deadline, rfl⟩
    · exact .watchExpired stale
    · exact .watchOpens current deadline
  | stop => obtain ⟨within, rfl⟩ := apply_stop.1 h; exact .stop within
  | listCount => obtain rfl := apply_listCount.1 h; exact .listCount
  | listQuery =>
    obtain ⟨_, counted, rfl⟩ := listQuery_eq_some (by simpa only [apply] using h)
    exact .listQuery counted
  | listEnumerate =>
    obtain ⟨_, _, _, _, fetched, listed, rfl⟩ :=
      listEnumerate_eq_some (by simpa only [apply] using h)
    exact .listEnumerate fetched listed
  | schedulerSelect => obtain ⟨top, rfl⟩ := apply_schedulerSelect.1 h; exact .schedulerSelect top
  | schedulerLock =>
    obtain ⟨ready, rfl⟩ := apply_schedulerLock.1 h
    unfold relistCheck
    split_ifs with pending early
    · exact .schedulerSleep ready pending early
    · exact .schedulerWave ready pending (Nat.not_lt.1 early)
    · exact .schedulerPark ready (Bool.eq_false_iff.2 pending)
  | schedulerRelock =>
    obtain ⟨signalled, rfl⟩ := apply_schedulerRelock.1 h; exact .schedulerRelock signalled
  | schedulerWake =>
    obtain ⟨_, sleeping, woken, rfl⟩ := apply_schedulerWake.1 h; exact .schedulerWake sleeping woken
  | cancelContext => obtain rfl := apply_cancelContext.1 h; exact .cancelContext

end ApiWatch.Catalog
