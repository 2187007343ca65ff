import ApiWatch.Version
import ApiWatch.Sessions

/-!
# What the reflector holds while it watches

The informer's reflector calls `List`, puts the items in its store, and then calls `Watch`
at the version string the `List` returned.  The catalog never sends an event on a watch: it
only ends the stream, when the session times out or is stopped, or when a `List` or a relist
wave calls every cancel function, and the reflector then lists again.  Between the `Watch`
and the end of its stream the store is all the reflector knows.

This module proves that the protocol keeps that store right.  While the session the `Watch`
opened is not cancelled and no relist is pending, no `List` and no invalidation ran since the
reflector's `List` counted.  If that `List`'s query found groups, the cache still holds the
data it fetched, and the store holds exactly the items a `List` would enumerate now from the
current definer index and that data, under the current version.  A pending relist is the one
way the store can be stale, and the wave that clears it cancels the session.  A query that
found no groups leaves the cache invalid, and the query of any older `List` still in flight
may then fill it with other data.

Two invariants carry the proof.  A `List` call whose version is still the current one is
`Current`: nothing that could change its answer ran since it counted.  And after a `Watch`,
a `List` or an invalidation leaves the session cancelled or a relist pending (`Flagged`),
since the wave that clears `needRelist` cancels every session.
-/

namespace ApiWatch.InSync

open ApiWatch.Go ApiWatch.Metav1 ApiWatch.DefinerIndex ApiWatch.Enumerate ApiWatch.Catalog
  ApiWatch.Version ApiWatch.Sessions

variable {cfg : Config}

/-! ## `List` calls nothing has overtaken -/

/-- What a `List` call in the given phase finds in the cache and the index, if the client
served groups when its query went to it: once it queried, the cache still holds the data it
fetched; once it returned, the cache holds them still and its items are what its second
critical section would compute from them and the index. -/
def Current (cfg : Config) (cache : MemCache) (index : Index) : ListPhase → Prop
  | .counted => True
  | .fetched data fetchedAt => (cfg.server fetchedAt).groups ≠ [] → cache = ⟨true, data, fetchedAt⟩
  | .done result fetchedAt => (cfg.server fetchedAt).groups ≠ [] →
    cache.valid = true ∧ cache.fetchedAt = fetchedAt ∧
      ∃ order, listItems cfg.includeSubresources index order result.resourceVersion cache.data =
        some result.items

/-- Every `List` call whose version is the current one is `Current`. -/
def Settled (cfg : Config) (rt : Runtime) : Prop :=
  ∀ (call : Nat) (entry : ListCall), rt.calls[call]? = some entry →
    entry.version = rt.resourceVersionI → Current cfg rt.cache rt.index entry.phase

/-- A query leaves a valid cache as it is. -/
theorem query_of_valid {cache : MemCache} (valid : cache.valid = true)
    (server : Nat → Discovery) (now : Nat) : cache.query server now = cache :=
  if_pos valid

/-- After a query the cache is valid, unless the client served no groups at the time the
cache last went to it. -/
theorem query_eq_valid (cache : MemCache) (server : Nat → Discovery) (now : Nat)
    (served : (server (cache.query server now).fetchedAt).groups ≠ []) :
    cache.query server now =
      ⟨true, (cache.query server now).data, (cache.query server now).fetchedAt⟩ := by
  unfold MemCache.query at served ⊢
  split_ifs at served ⊢ with valid empty
  · obtain ⟨_, _, _⟩ := cache
    subst valid
    rfl
  · exact absurd (List.isEmpty_iff.1 empty) served
  · rfl

/-- A query keeps every call current: a call past its own query finds the cache valid. -/
theorem Current.query {cache : MemCache} {index : Index} {phase : ListPhase}
    (current : Current cfg cache index phase) (server : Nat → Discovery) (now : Nat) :
    Current cfg (cache.query server now) index phase := by
  cases phase with
  | counted => trivial
  | fetched data fetchedAt =>
    intro served
    rw [current served]
    rfl
  | done result fetchedAt =>
    intro served
    rw [query_of_valid (current served).1]
    exact current served

theorem settled_init : Settled cfg init := by
  intro _ _ found
  simp [init] at found

/-- Every step keeps the calls at the current version current: a step that bumps the version
overtakes every call there is, a query refetches only into an invalid cache, and a second
critical section enumerates from the data its query fetched, still in the cache. -/
theorem Settled.step {rt rt' : Runtime} {event : Event} (settled : Settled cfg rt)
    (ordered : CallsOrdered rt) (below : rt.resourceVersionI.toInt < Int64.maxValue)
    (h : step cfg rt event = some rt') : Settled cfg rt' := by
  obtain ⟨time, action⟩ := event
  have overtaken : ∀ entry ∈ rt.calls, entry.version ≠ rt.resourceVersionI.succ :=
    fun entry mem same => by
      have atMost := ordered.atMost entry mem
      rw [same, Int64.succ_toInt below] at atMost
      omega
  cases apply_effect (step_eq_some.1 h).2
  case invalidate | invalidateWithDefiner =>
    intro _ entry found same
    exact absurd same (overtaken entry (List.getElem?_mem found))
  case listCount =>
    intro _ entry found same
    rcases List.mem_append.1 (List.getElem?_mem found) with old | new
    · exact absurd same (overtaken entry old)
    · obtain rfl := List.mem_singleton.1 new
      trivial
  case listQuery call version counted =>
    intro other entry found same
    by_cases here : call = other
    · subst here
      rw [List.getElem?_set_self (List.getElem?_eq_some_iff.1 counted).1] at found
      cases found
      exact query_eq_valid _ _ _
    · rw [List.getElem?_set_ne here] at found
      exact (settled other entry found same).query cfg.server time
  case listEnumerate call order version data fetchedAt items fetched listed =>
    intro other entry found same
    by_cases here : call = other
    · subst here
      rw [List.getElem?_set_self (List.getElem?_eq_some_iff.1 fetched).1] at found
      cases found
      intro served
      rw [settled call _ fetched same served]
      exact ⟨rfl, rfl, order, listed⟩
    · rw [List.getElem?_set_ne here] at found
      exact settled other entry found same
  all_goals exact settled

/-- Along a run that stays below `math.MaxInt64` the calls at the current version stay
current. -/
theorem exec_settled {start rt : Runtime} {events : List Event}
    (run : exec cfg start events = some rt) (below : BelowMax cfg start events)
    (ordered : CallsOrdered start) (settled : Settled cfg start) : Settled cfg rt := by
  induction events generalizing start with
  | nil => cases run; exact settled
  | cons event rest ih =>
    obtain ⟨next, stepped, run⟩ := Option.bind_eq_some.1 run
    exact ih run (@BelowMax.drop _ _ _ [event] _ below (by simp [exec, stepped]))
      (ordered.step stepped below.start) (settled.step ordered below.start stepped)

/-- A returned call stays as it returned. -/
theorem step_done {rt rt' : Runtime} {event : Event} (h : step cfg rt event = some rt')
    {call : Nat} {version : Int64} {result : Ksmetav1a1.APIResourceList} {fetchedAt : Nat}
    (done : rt.calls[call]? = some ⟨version, .done result fetchedAt⟩) :
    rt'.calls[call]? = some ⟨version, .done result fetchedAt⟩ := by
  obtain ⟨time, action⟩ := event
  cases apply_effect (step_eq_some.1 h).2
  case listCount =>
    exact (List.getElem?_append_left (List.getElem?_eq_some_iff.1 done).1).trans done
  case listQuery other _ found | listEnumerate other _ _ _ _ _ found _ =>
    have apart : other ≠ call := by
      rintro rfl
      cases found.symm.trans done
    exact (List.getElem?_set_ne apart).trans done
  all_goals exact done

theorem exec_done {start rt : Runtime} {events : List Event}
    (run : exec cfg start events = some rt) {call : Nat} {version : Int64}
    {result : Ksmetav1a1.APIResourceList} {fetchedAt : Nat}
    (done : start.calls[call]? = some ⟨version, .done result fetchedAt⟩) :
    rt.calls[call]? = some ⟨version, .done result fetchedAt⟩ :=
  exec_preserves (fun rt => rt.calls[call]? = some ⟨version, .done result fetchedAt⟩)
    (fun done stepped => step_done stepped done) run done

theorem belowMax_of_append {start : Runtime} {first rest : List Event}
    (below : BelowMax cfg start (first ++ rest)) : BelowMax cfg start first :=
  fun pre post split mid ran => below pre (post ++ rest) (by rw [split, List.append_assoc]) mid ran

/-- A run in which no critical section bumps the version leaves it. -/
theorem exec_resourceVersionI_still {start rt : Runtime} {events : List Event}
    (run : exec cfg start events = some rt)
    (still : ∀ event ∈ events, event.action.bumpsVersion = false) :
    rt.resourceVersionI = start.resourceVersionI := by
  induction events generalizing start with
  | nil => cases run; rfl
  | cons event rest ih =>
    obtain ⟨next, stepped, run⟩ := Option.bind_eq_some.1 run
    rw [ih run fun other mem => still other (List.mem_cons_of_mem _ mem),
      step_resourceVersionI stepped, still event (List.mem_cons_self _ _)]
    rfl

/-! ## A session after its `Watch` -/

/-- A relist is pending, or the `session`-th session is cancelled. -/
def Flagged (rt : Runtime) (session : Nat) : Prop :=
  rt.needRelist = true ∨ CancelledAt rt.sessions session

/-- A pending relist stays pending until the wave. -/
theorem step_needRelist {rt rt' : Runtime} {event : Event} (h : step cfg rt event = some rt')
    (pending : rt.needRelist = true) (quiet : ¬ Wave rt event) : rt'.needRelist = true := by
  obtain ⟨time, action⟩ := event
  cases apply_effect (step_eq_some.1 h).2
  case schedulerWave due => exact absurd ⟨rfl, pending, due⟩ quiet
  case invalidate | invalidateWithDefiner => rfl
  all_goals exact pending

/-- An invalidation leaves a relist pending. -/
theorem step_invalidates {rt rt' : Runtime} {event : Event} (h : step cfg rt event = some rt')
    (invalidates : event.action.invalidates) : rt'.needRelist = true := by
  obtain ⟨time, action⟩ := event
  cases apply_effect (step_eq_some.1 h).2
  case invalidate | invalidateWithDefiner => rfl
  all_goals cases invalidates

/-- No step shortens the list of sessions. -/
theorem length_le_of_registered {rt rt' : Runtime} {event : Event} (registered : Registered rt)
    (h : step cfg rt event = some rt') : rt.sessions.length ≤ rt'.sessions.length := by
  have grown := (step_cancels_grow h).length_le
  rwa [show rt.cancels = _ from registered, show rt'.cancels = _ from registered.step h,
    List.length_range, List.length_range] at grown

section Flagged

variable {rt rt' : Runtime} {event : Event} {session : Nat} (registered : Registered rt)
  (opened : session < rt.sessions.length) (h : step cfg rt event = some rt')
include registered opened h

theorem Flagged.step (flagged : Flagged rt session) : Flagged rt' session := by
  rcases flagged with pending | cancelled
  · by_cases wave : Wave rt event
    · exact .inr (cancelledAt_of_ends registered h (.inr wave) opened)
    · exact .inl (step_needRelist h pending wave)
  · exact .inr (cancelled.step h)

/-- A `List` cancels the session, and an invalidation leaves a relist pending. -/
theorem flagged_of_bumps (bumps : event.action.bumpsVersion) : Flagged rt' session := by
  cases starts : event.action.startsList
  · exact .inl (step_invalidates h (by simpa [Action.bumpsVersion, starts] using bumps))
  · exact .inr (cancelledAt_of_ends registered h (.inl starts) opened)

end Flagged

/-- Over a run from a state where the session is open, a relist pending or the session
cancelled stays so, and a `List` or an invalidation makes it so. -/
theorem exec_flagged {start rt : Runtime} {events : List Event}
    (run : exec cfg start events = some rt) (registered : Registered start) {session : Nat}
    (opened : session < start.sessions.length) :
    (Flagged start session → Flagged rt session) ∧
      ((∃ event ∈ events, event.action.bumpsVersion) → Flagged rt session) := by
  induction events generalizing start with
  | nil =>
    cases run
    exact ⟨id, fun ⟨_, mem, _⟩ => absurd mem (List.not_mem_nil _)⟩
  | cons event rest ih =>
    obtain ⟨next, stepped, run⟩ := Option.bind_eq_some.1 run
    have later := ih run (registered.step stepped)
      (opened.trans_le (length_le_of_registered registered stepped))
    refine ⟨fun flagged => later.1 (flagged.step registered opened stepped), ?_⟩
    rintro ⟨bumping, mem, bumps⟩
    rcases List.mem_cons.1 mem with rfl | mem
    · exact later.1 (flagged_of_bumps registered opened stepped bumps)
    · exact later.2 ⟨bumping, mem, bumps⟩

/-! ## The reflector's store -/

/--
While the session a `Watch` opened at the version string of a returned `List` is not
cancelled and no relist is pending, that `List` holds what a `List` would return now, if its
query found groups: its version string is that of the current version, the cache is valid
and holds the data it fetched, and its items are those the current definer index gives over
them, for some order of the map loops.  This holds over every run that keeps the version
below `math.MaxInt64`.
-/
theorem watching_holds_current {events : List Event} {rt : Runtime}
    (run : exec cfg init events = some rt) (below : BelowMax cfg init events)
    {pre post : List Event} {time : Nat} {opts : ListOptions}
    (split : events = pre ++ ⟨time, .watch opts⟩ :: post) {before : Runtime}
    (ran : exec cfg init pre = some before)
    (current : formatInt before.resourceVersionI = opts.resourceVersion)
    {call : Nat} {version : Int64} {result : Ksmetav1a1.APIResourceList} {fetchedAt : Nat}
    (listed : before.calls[call]? = some ⟨version, .done result fetchedAt⟩)
    (served : (cfg.server fetchedAt).groups ≠ [])
    (resumed : opts.resourceVersion = result.resourceVersion)
    (watching : ∃ session, rt.sessions[before.sessions.length]? = some session ∧
      session.cancelled = false)
    (settled : rt.needRelist = false) :
    result.resourceVersion = formatInt rt.resourceVersionI ∧ rt.cache.valid = true ∧
      rt.cache.fetchedAt = fetchedAt ∧
      ∃ order, listItems cfg.includeSubresources rt.index order result.resourceVersion
        rt.cache.data = some result.items := by
  rw [split, ← List.singleton_append, ← List.append_assoc] at run below
  obtain ⟨mid, ranMid, rest⟩ := exec_append_eq_some run
  have watched : step cfg before ⟨time, .watch opts⟩ = some mid := by
    rwa [exec_append_singleton, ran] at ranMid
  -- the `Watch` opened the session right after the ones before it
  obtain ⟨_, found⟩ := apply_watch.1 (step_eq_some.1 watched).2
  have opened : before.sessions.length < mid.sessions.length := by
    rcases watch_eq_some found with ⟨stale, -⟩ | ⟨-, -, deadline, rfl⟩
    · exact absurd current stale
    · simp
  have sameVersion : mid.resourceVersionI = before.resourceVersionI := by
    rw [step_resourceVersionI watched]
    rfl
  -- so no `List` and no invalidation ran after it
  have quiet : ∀ event ∈ post, event.action.bumpsVersion = false := by
    intro event mem
    by_contra bumps
    obtain ⟨session, live, uncancelled⟩ := watching
    rcases (exec_flagged rest (exec_registered ranMid registered_init).1 opened).2
      ⟨event, mem, by simpa using bumps⟩ with pending | ⟨entry, found, cancelled⟩
    · rw [settled] at pending
      cases pending
    · rw [live] at found
      cases found
      rw [uncancelled] at cancelled
      cases cancelled
  -- and none between the `List`'s first critical section and the `Watch`
  have stamped := (exec_callsOrdered ran (belowMax_of_append (belowMax_of_append below))
    callsOrdered_init).stamped _ (List.getElem?_mem listed) result fetchedAt rfl
  have versions : version = rt.resourceVersionI := by
    rw [exec_resourceVersionI_still rest quiet, sameVersion]
    exact (formatInt_injective (current.trans (resumed.trans stamped))).symm
  have now := exec_settled run below callsOrdered_init settled_init call _
    (exec_done rest (step_done watched listed)) versions
  exact ⟨versions ▸ stamped, now served⟩

/-- The reflector's first `List` against a client that serves the core group, and its
`Watch`, with nothing in between. -/
theorem watching_holds_current_first :
    ∃ rt, exec ⟨"kind", true, fun _ => ⟨[⟨"", "v1"⟩], [], []⟩⟩ init
        [⟨0, .listCount⟩, ⟨0, .listQuery 0⟩, ⟨0, .listEnumerate 0 IterationOrder.stored⟩,
          ⟨0, .watch ⟨"2", some (Int64.wrap 60)⟩⟩] = some rt ∧
      "2" = formatInt rt.resourceVersionI ∧ rt.cache.valid = true ∧
      rt.cache.fetchedAt = 0 ∧
      ∃ order, listItems true rt.index order "2" rt.cache.data = some [] :=
  ⟨_, rfl, @watching_holds_current ⟨"kind", true, fun _ => ⟨[⟨"", "v1"⟩], [], []⟩⟩ _ _ (by rfl)
    (belowMax_of_few (by decide))
    [⟨0, .listCount⟩, ⟨0, .listQuery 0⟩, ⟨0, .listEnumerate 0 IterationOrder.stored⟩] [] 0
    ⟨"2", some (Int64.wrap 60)⟩ rfl _ rfl (by decide) 0 _ ⟨"2", []⟩ 0 rfl (List.cons_ne_nil _ _)
    rfl ⟨_, rfl, rfl⟩ rfl⟩

end ApiWatch.InSync
