import ApiWatch.Relist

/-!
# The discovery cache and the relist delay

`NewAPIResourceInformer` promises that re-querying the discovery client after an
invalidation is delayed by a few decaseconds.  The code delays only the relist wave: every
invalidation drops the memory cache at once, so the next `List`, whenever it comes, fetches
from the client straight away.  A `List` that runs inside the twenty-second window therefore
anchors the informer on data fetched inside it, and since the wave does not move the version,
a `Watch` at that `List`'s version still succeeds after the deadline.

The cache itself is coherent: a `List`'s query never hands it data fetched before the last
invalidation that precedes the query.
-/

namespace ApiWatch.Cache

open ApiWatch.Go ApiWatch.Metav1 ApiWatch.Enumerate ApiWatch.Catalog ApiWatch.Relist

variable {cfg : Config}

/-- An invalidation at time 0, a `List` at 1 ns whose query refetches discovery data at once
from a client that serves the core group, and the scheduler's wave at the twenty-second
deadline: afterwards a `Watch` at that deadline, at the `List`'s version, succeeds on data
fetched 1 ns after the invalidation. -/
theorem watch_accepts_snapshot_inside_window :
    ∃ rt, exec ⟨"kind", true, fun _ => ⟨[⟨"", "v1"⟩], [], []⟩⟩ init
        [⟨0, .invalidate⟩, ⟨1, .listCount⟩, ⟨1, .listQuery 0⟩,
          ⟨1, .listEnumerate 0 IterationOrder.stored⟩, ⟨relistDelay, .schedulerSelect⟩,
          ⟨relistDelay, .schedulerLock⟩] = some rt ∧
      rt.relistAfter = relistDelay ∧ rt.needRelist = false ∧
      (∃ call result, rt.calls[0]? = some call ∧ call.phase = .done result 1 ∧
        result.resourceVersion = "3") ∧
      ∃ session rt', watch ⟨"kind", true, fun _ => ⟨[⟨"", "v1"⟩], [], []⟩⟩ rt relistDelay
        ⟨"3", some (Int64.wrap 60)⟩ = some (.ok session, rt') :=
  ⟨_, rfl, rfl, rfl, ⟨_, _, rfl, rfl, by decide⟩, _, _, rfl⟩

/-! ## The cache is coherent -/

/-- An invalidation drops the cache, a `List`'s query may refill it, no other step touches it,
and no critical section moves the clock. -/
theorem apply_cache {rt rt' : Runtime} {now : Nat} {action : Action}
    (h : apply cfg rt now action = some rt') :
    rt'.now = rt.now ∧
      ((action.invalidates ∧ rt'.cache = rt.cache.invalidate) ∨
        (∃ call, action = .listQuery call ∧ rt'.cache = rt.cache.query cfg.server now) ∨
        (action.invalidates = false ∧ rt'.cache = rt.cache)) := by
  cases apply_effect h
  case invalidate | invalidateWithDefiner => exact ⟨rfl, .inl ⟨rfl, rfl⟩⟩
  case listQuery => exact ⟨rfl, .inr (.inl ⟨_, rfl, rfl⟩)⟩
  all_goals exact ⟨rfl, .inr (.inr ⟨rfl, rfl⟩)⟩

/-- The data a valid cache holds were fetched after the last invalidation, and the clock is
past both the fetch and the last invalidation. -/
structure Coherent (events : List Event) (rt : Runtime) : Prop where
  fresh : rt.cache.valid = true → ∀ invalidation, lastInvalidation events = some invalidation →
    invalidation.time ≤ rt.cache.fetchedAt
  fetchedBefore : rt.cache.fetchedAt ≤ rt.now
  invalidatedBefore : ∀ invalidation, lastInvalidation events = some invalidation →
    invalidation.time ≤ rt.now

/-- A query at a time no earlier than the clock hands out data fetched after the last
invalidation and no later than the query. -/
theorem Coherent.query {events : List Event} {rt : Runtime} (coherent : Coherent events rt)
    {time : Nat} (later : rt.now ≤ time) :
    (rt.cache.query cfg.server time).fetchedAt ≤ time ∧
      ∀ invalidation, lastInvalidation events = some invalidation →
        invalidation.time ≤ (rt.cache.query cfg.server time).fetchedAt := by
  unfold MemCache.query
  split_ifs with valid
  · exact ⟨coherent.fetchedBefore.trans later, coherent.fresh valid⟩
  all_goals exact ⟨le_rfl, fun invalidation last =>
    (coherent.invalidatedBefore invalidation last).trans later⟩

theorem Coherent.step {events : List Event} {rt rt' : Runtime} {event : Event}
    (coherent : Coherent events rt) (stepped : step cfg rt event = some rt') :
    Coherent (events ++ [event]) rt' := by
  obtain ⟨later, applied⟩ := step_eq_some.1 stepped
  obtain ⟨clock, cache⟩ := apply_cache applied
  have last := lastInvalidation_append_singleton events event
  rcases cache with ⟨invalidates, dropped⟩ | ⟨call, query, refilled⟩ | ⟨quiet, same⟩
  · rw [invalidates, if_pos rfl] at last
    refine ⟨fun valid => by simp [dropped, MemCache.invalidate] at valid, ?_,
      fun invalidation found => ?_⟩
    · rw [dropped, clock]
      exact coherent.fetchedBefore.trans later
    · rw [last] at found
      cases found
      exact clock.ge
  · have quiet : event.action.invalidates = false := by rw [query]; rfl
    rw [quiet, if_neg (by simp)] at last
    obtain ⟨fetched, fresh⟩ := @Coherent.query cfg _ _ coherent _ later
    refine ⟨fun _ invalidation found => ?_, ?_, fun invalidation found => ?_⟩
    · rw [refilled]
      exact fresh invalidation (last ▸ found)
    · rw [refilled, clock]
      exact fetched
    · rw [clock]
      exact (coherent.invalidatedBefore invalidation (last ▸ found)).trans later
  · rw [quiet, if_neg (by simp)] at last
    refine ⟨fun valid invalidation found => ?_, ?_, fun invalidation found => ?_⟩
    · rw [same] at valid ⊢
      exact coherent.fresh valid invalidation (last ▸ found)
    · rw [same, clock]
      exact coherent.fetchedBefore.trans later
    · rw [clock]
      exact (coherent.invalidatedBefore invalidation (last ▸ found)).trans later

end ApiWatch.Cache
