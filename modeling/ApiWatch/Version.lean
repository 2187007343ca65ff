import ApiWatch.Catalog

/-!
# The version counter

`resourceVersionI` ties a `Watch` to the `List` it follows.  The first critical section of
every `List` and every invalidation increment it, and nothing else touches it, so as long as
it stays below `math.MaxInt64` it counts those critical sections.  Since `strconv.FormatInt`
is injective, the version check of `Watch` then passes exactly when no such critical section
ran since the `List` whose version the client hands back.
-/

namespace ApiWatch.Version

open ApiWatch.Go ApiWatch.Metav1 ApiWatch.Catalog

variable {cfg : Config}

/-! ## What a step does to the version and the `List` calls -/

/-- Every returned `List` call carries the version string of its own version. -/
def Stamped (calls : List ListCall) : Prop :=
  ∀ call ∈ calls, ∀ result fetchedAt, call.phase = .done result fetchedAt →
    result.resourceVersion = formatInt call.version

theorem set_version_self {calls : List ListCall} {call : Nat} {entry : ListCall}
    (found : calls[call]? = some entry) :
    (calls.map (·.version)).set call entry.version = calls.map (·.version) := by
  have within : call < calls.length := (List.getElem?_eq_some_iff.1 found).1
  refine List.ext_getElem? fun index => ?_
  by_cases here : call = index
  · subst here
    rw [List.getElem?_set_self (by simpa using within), List.getElem?_map, found]
    rfl
  · simp [List.getElem?_set_ne here]

theorem Stamped.set {calls : List ListCall} (stamped : Stamped calls) {call : Nat}
    {entry : ListCall} (fresh : ∀ result fetchedAt, entry.phase = .done result fetchedAt →
      result.resourceVersion = formatInt entry.version) :
    Stamped (calls.set call entry) := fun other mem =>
  (List.mem_or_eq_of_mem_set mem).elim (stamped other) fun same => same ▸ fresh

/-- Only the first critical section of `List` and the invalidations move the version, each by
one `int64` increment; a step appends the new version when it starts a `List`, keeps the
versions of the calls otherwise, and stamps a returning call with its own version. -/
theorem apply_versions {rt rt' : Runtime} {now : Nat} {action : Action}
    (h : apply cfg rt now action = some rt') :
    rt'.resourceVersionI =
      (if action.bumpsVersion then rt.resourceVersionI.succ else rt.resourceVersionI) ∧
    rt'.calls.map (·.version) =
      rt.calls.map (·.version) ++ (if action.startsList then [rt'.resourceVersionI] else []) ∧
    (Stamped rt.calls → Stamped rt'.calls) := by
  cases apply_effect h
  case listQuery found | listEnumerate found _ =>
    exact ⟨rfl, by simp [Action.startsList, set_version_self found],
      fun stamped => stamped.set (by simp)⟩
  case listCount =>
    refine ⟨rfl, by simp [listCount, Action.startsList], fun stamped call mem => ?_⟩
    rcases List.mem_append.1 mem with mem | mem
    · exact stamped call mem
    · simp_all
  all_goals exact ⟨rfl, by simp [Action.startsList], id⟩

theorem step_resourceVersionI {rt rt' : Runtime} {event : Event}
    (h : step cfg rt event = some rt') :
    rt'.resourceVersionI =
      if event.action.bumpsVersion then rt.resourceVersionI.succ else rt.resourceVersionI := by
  have := (apply_versions (step_eq_some.1 h).2).1
  exact this

/-! ## The version over a run -/

/-- Every state a run from `start` passes through, its last one included, has its version
below `math.MaxInt64`. -/
def BelowMax (cfg : Config) (start : Runtime) (events : List Event) : Prop :=
  ∀ pre post, events = pre ++ post → ∀ mid, exec cfg start pre = some mid →
    mid.resourceVersionI.toInt < Int64.maxValue

theorem BelowMax.start {start : Runtime} {events : List Event}
    (below : BelowMax cfg start events) : start.resourceVersionI.toInt < Int64.maxValue :=
  below [] events rfl start rfl

theorem BelowMax.drop {start mid : Runtime} {first rest : List Event}
    (below : BelowMax cfg start (first ++ rest)) (run : exec cfg start first = some mid) :
    BelowMax cfg mid rest := fun pre post split inner ran =>
  below (first ++ pre) post (by rw [split, List.append_assoc])
    inner (by rw [exec_append, run]; exact ran)

/-- Below `math.MaxInt64` a step moves the version by one exactly when it bumps it. -/
theorem step_resourceVersionI_toInt {rt rt' : Runtime} {event : Event}
    (h : step cfg rt event = some rt') (below : rt.resourceVersionI.toInt < Int64.maxValue) :
    rt'.resourceVersionI.toInt =
      rt.resourceVersionI.toInt + if event.action.bumpsVersion then 1 else 0 := by
  rw [step_resourceVersionI h]
  split_ifs
  · exact Int64.succ_toInt below
  · simp

/-- Over a run that stays below `math.MaxInt64`, the version grows by the number of
critical sections that bump it. -/
theorem exec_resourceVersionI {start rt : Runtime} {events : List Event}
    (run : exec cfg start events = some rt) (below : BelowMax cfg start events) :
    rt.resourceVersionI.toInt =
      start.resourceVersionI.toInt + events.countP (·.action.bumpsVersion) := by
  induction events generalizing start with
  | nil => cases run; simp
  | cons event rest ih =>
    obtain ⟨next, stepped, run⟩ := Option.bind_eq_some.1 run
    have restBelow : BelowMax cfg next rest :=
      @BelowMax.drop _ _ _ [event] _ below (by simp [exec, stepped])
    rw [ih run restBelow, step_resourceVersionI_toInt stepped below.start, List.countP_cons]
    split_ifs <;> simp_all
    omega

/-- From the initial catalog, as long as fewer than `math.MaxInt64 - 1` critical sections
bump the version, it is one more than their number. -/
theorem exec_init_resourceVersionI {events : List Event} {rt : Runtime}
    (run : exec cfg init events = some rt)
    (few : (events.countP (·.action.bumpsVersion) : Int) + 1 < Int64.maxValue) :
    rt.resourceVersionI.toInt = 1 + events.countP (·.action.bumpsVersion) := by
  induction events using List.reverseRecOn generalizing rt with
  | nil => cases run; rfl
  | append_singleton pre event ih =>
    rw [exec_append_singleton] at run
    obtain ⟨before, ran, stepped⟩ := Option.bind_eq_some.1 run
    rw [List.countP_append] at few ⊢
    have counted := ih ran (by omega)
    rw [step_resourceVersionI_toInt stepped (by omega), counted]
    split_ifs with bumps
    · simp [List.countP_cons, bumps]
      omega
    · simp [List.countP_cons, bumps]

/-- A run from the initial catalog with fewer than `math.MaxInt64 - 1` critical sections that
bump the version stays below `math.MaxInt64`. -/
theorem belowMax_of_few {events : List Event}
    (few : (events.countP (·.action.bumpsVersion) : Int) + 1 < Int64.maxValue) :
    BelowMax cfg init events := by
  intro pre post split mid ran
  have fewer : pre.countP (·.action.bumpsVersion) ≤ events.countP (·.action.bumpsVersion) := by
    rw [split, List.countP_append]
    omega
  rw [exec_init_resourceVersionI ran (by omega)]
  omega

/--
The version cannot overflow in practice: over every run from the initial catalog in which
fewer than `math.MaxInt64 - 1` critical sections bump it, every state has its version below
`math.MaxInt64`, and the version is one more than the number of `List` and invalidation
critical sections so far.
-/
theorem version_counts_bumps {events : List Event}
    (few : (events.countP (·.action.bumpsVersion) : Int) + 1 < Int64.maxValue) :
    BelowMax cfg init events ∧ ∀ rt, exec cfg init events = some rt →
      rt.resourceVersionI.toInt = 1 + events.countP (·.action.bumpsVersion) :=
  ⟨belowMax_of_few few, fun _ run => exec_init_resourceVersionI run few⟩

/-- A `List`, an invalidation, and a `Watch` at the version the `List` returned. -/
theorem version_counts_bumps_stale_watch :
    let events : List Event :=
      [⟨0, .listCount⟩, ⟨0, .listQuery 0⟩, ⟨0, .listEnumerate 0 Enumerate.IterationOrder.stored⟩,
        ⟨1, .invalidate⟩, ⟨2, .watch ⟨"2", some (Int64.wrap 60)⟩⟩]
    BelowMax ⟨"kind", true, fun _ => ⟨[⟨"", "v1"⟩], [], []⟩⟩ init events ∧
      ∀ rt, exec ⟨"kind", true, fun _ => ⟨[⟨"", "v1"⟩], [], []⟩⟩ init events = some rt →
        rt.resourceVersionI.toInt = 1 + events.countP (·.action.bumpsVersion) :=
  version_counts_bumps (by decide)

/-! ## The versions `List` stamps -/

/-- The versions of the `List` calls increase, none is past the current version, and the
returned calls carry their own version. -/
structure CallsOrdered (rt : Runtime) : Prop where
  increasing : (rt.calls.map (·.version.toInt)).Pairwise (· < ·)
  atMost : ∀ call ∈ rt.calls, call.version.toInt ≤ rt.resourceVersionI.toInt
  stamped : Stamped rt.calls

theorem callsOrdered_init : CallsOrdered init :=
  ⟨List.Pairwise.nil, by simp [init], by simp [Stamped, init]⟩

theorem CallsOrdered.step {rt rt' : Runtime} {event : Event} (ordered : CallsOrdered rt)
    (h : step cfg rt event = some rt') (below : rt.resourceVersionI.toInt < Int64.maxValue) :
    CallsOrdered rt' := by
  obtain ⟨-, versions, stamped⟩ := apply_versions (step_eq_some.1 h).2
  have grows := step_resourceVersionI_toInt h below
  have before : ∀ version ∈ rt.calls.map (·.version),
      version.toInt ≤ rt.resourceVersionI.toInt := fun _ mem => by
    obtain ⟨call, callMem, rfl⟩ := List.mem_map.1 mem
    exact ordered.atMost call callMem
  refine ⟨?_, fun call mem => ?_, stamped ordered.stamped⟩
  · have toInts := congrArg (List.map Int64.toInt) versions
    simp only [List.map_map, Function.comp_def] at toInts
    rw [toInts, List.map_append, List.pairwise_append]
    refine ⟨by simpa [List.map_map, Function.comp_def] using ordered.increasing,
      by split_ifs <;> simp, fun old oldMem new newMem => ?_⟩
    split_ifs at newMem with starts
    · obtain ⟨version, versionMem, rfl⟩ := List.mem_map.1 oldMem
      have bumps : event.action.bumpsVersion := by simp [Action.bumpsVersion, starts]
      simp only [List.map_cons, List.map_nil, List.mem_singleton] at newMem
      rw [newMem, grows, if_pos bumps]
      have := before version versionMem
      omega
    · simp at newMem
  · have versionMem : call.version ∈ rt'.calls.map (·.version) := List.mem_map_of_mem _ mem
    rw [versions, List.mem_append] at versionMem
    rcases versionMem with old | new
    · have := before _ old
      split_ifs at grows <;> omega
    · split_ifs at new
      · exact le_of_eq (congrArg Int64.toInt (List.mem_singleton.1 new))
      · exact absurd new (List.not_mem_nil _)

/-- Along a run that stays below `math.MaxInt64` the calls stay ordered. -/
theorem exec_callsOrdered {start rt : Runtime} {events : List Event}
    (run : exec cfg start events = some rt) (below : BelowMax cfg start events)
    (ordered : CallsOrdered start) : CallsOrdered rt := by
  induction events generalizing start with
  | nil => cases run; exact ordered
  | cons event rest ih =>
    obtain ⟨next, stepped, run⟩ := Option.bind_eq_some.1 run
    exact ih run (@BelowMax.drop _ _ _ [event] _ below (by simp [exec, stepped]))
      (ordered.step stepped below.start)

/-- The calls of an earlier state keep their versions in every later one. -/
theorem exec_callVersions {start rt : Runtime} {events : List Event}
    (run : exec cfg start events = some rt) :
    start.calls.map (·.version) <+: rt.calls.map (·.version) :=
  exec_preserves (fun rt => start.calls.map (·.version) <+: rt.calls.map (·.version))
    (fun grown stepped => by
      show _ <+: _
      rw [(apply_versions (step_eq_some.1 stepped).2).2.1]
      exact grown.trans (List.prefix_append _ _)) run (List.prefix_refl _)

/-! ## The version check of `Watch` -/

/-- `Watch` fails with `ResourceExpired`, changing nothing, exactly when the client's version
string is not that of the current version. -/
theorem watch_expired_iff {rt : Runtime} {now : Nat} {opts : ListOptions} :
    watch cfg rt now opts = some (.error (expiredError cfg.clusterName opts.resourceVersion
        (formatInt rt.resourceVersionI)), rt) ↔
      formatInt rt.resourceVersionI ≠ opts.resourceVersion := by
  constructor
  · intro h current
    rcases watch_eq_some h with ⟨stale, -⟩ | ⟨-, opened, -⟩
    · exact stale current
    · cases opened
  · intro stale
    simp [watch, stale]

/-- At the current version and with a timeout, `Watch` opens a session. -/
theorem watch_opens {rt : Runtime} {now : Nat} {opts : ListOptions} {timeoutSeconds : Int64}
    (current : formatInt rt.resourceVersionI = opts.resourceVersion)
    (given : opts.timeoutSeconds = some timeoutSeconds) :
    ∃ session rt', watch cfg rt now opts = some (.ok session, rt') := by
  simp [watch, current, given]

/-- What the version counter guarantees over a run from `init` to `rt`. -/
structure VersionLaw (cfg : Config) (events : List Event) (rt : Runtime) : Prop where
  /-- A step that bumps the version increases it, and every other step leaves it. -/
  moves : ∀ pre event post before after, events = pre ++ event :: post →
    exec cfg init pre = some before → step cfg before event = some after →
      (event.action.bumpsVersion → before.resourceVersionI.toInt < after.resourceVersionI.toInt) ∧
      (event.action.bumpsVersion = false → after.resourceVersionI = before.resourceVersionI)
  /-- The `List` started at a given step stamps its result with the string of its version,
  and a `Watch` at that string fails exactly when a `List` or an invalidation ran since;
  otherwise, given a timeout, it opens a session. -/
  watchAfterList : ∀ pre time post before, events = pre ++ ⟨time, .listCount⟩ :: post →
    exec cfg init pre = some before →
      ∃ call, rt.calls[before.calls.length]? = some call ∧
        (∀ result fetchedAt, call.phase = .done result fetchedAt →
          result.resourceVersion = formatInt call.version) ∧
        ∀ now opts, opts.resourceVersion = formatInt call.version →
          (watch cfg rt now opts = some (.error (expiredError cfg.clusterName
              opts.resourceVersion (formatInt rt.resourceVersionI)), rt) ↔
            ∃ event ∈ post, event.action.bumpsVersion) ∧
          ((∀ event ∈ post, event.action.bumpsVersion = false) →
            ∀ timeoutSeconds, opts.timeoutSeconds = some timeoutSeconds →
              ∃ session rt', watch cfg rt now opts = some (.ok session, rt'))
  /-- No two `List` calls stamp the same version string. -/
  stampsDistinct : ∀ (first second : Nat) (callFirst callSecond : ListCall), first ≠ second →
    rt.calls[first]? = some callFirst → rt.calls[second]? = some callSecond →
      formatInt callFirst.version ≠ formatInt callSecond.version

theorem versionLaw_moves {events : List Event} (below : BelowMax cfg init events)
    {pre post : List Event} {event : Event} (split : events = pre ++ event :: post)
    {before after : Runtime} (ran : exec cfg init pre = some before)
    (stepped : step cfg before event = some after) :
    (event.action.bumpsVersion → before.resourceVersionI.toInt < after.resourceVersionI.toInt) ∧
    (event.action.bumpsVersion = false → after.resourceVersionI = before.resourceVersionI) := by
  have grows := step_resourceVersionI_toInt stepped (below pre _ split before ran)
  refine ⟨fun bumps => by simp only [bumps, if_true] at grows; omega, fun still => ?_⟩
  rw [step_resourceVersionI stepped, still]
  rfl

theorem versionLaw_watchAfterList {events : List Event} {rt : Runtime}
    (run : exec cfg init events = some rt) (below : BelowMax cfg init events)
    {pre post : List Event} {time : Nat} (split : events = pre ++ ⟨time, .listCount⟩ :: post)
    {before : Runtime} (ran : exec cfg init pre = some before) :
    ∃ call, rt.calls[before.calls.length]? = some call ∧
      (∀ result fetchedAt, call.phase = .done result fetchedAt →
        result.resourceVersion = formatInt call.version) ∧
      ∀ now opts, opts.resourceVersion = formatInt call.version →
        (watch cfg rt now opts = some (.error (expiredError cfg.clusterName
            opts.resourceVersion (formatInt rt.resourceVersionI)), rt) ↔
          ∃ event ∈ post, event.action.bumpsVersion) ∧
        ((∀ event ∈ post, event.action.bumpsVersion = false) →
          ∀ timeoutSeconds, opts.timeoutSeconds = some timeoutSeconds →
            ∃ session rt', watch cfg rt now opts = some (.ok session, rt')) := by
  rw [split, ← List.singleton_append, ← List.append_assoc] at run below
  obtain ⟨counted, countRun, postRun⟩ := exec_append_eq_some run
  have countStep : counted = listCount { before with now := time } := by
    rw [exec_append_singleton, ran] at countRun
    exact apply_listCount.1 (step_eq_some.1 countRun).2
  -- the call's version, kept to the end of the run
  have prefixed := exec_callVersions postRun
  have listed : (rt.calls.map (·.version))[before.calls.length]? =
      some counted.resourceVersionI := by
    obtain ⟨later, extended⟩ := prefixed
    rw [← extended, List.getElem?_append_left (by simp [countStep, listCount])]
    simp [countStep, listCount]
  obtain ⟨call, found, version⟩ : ∃ call, rt.calls[before.calls.length]? = some call ∧
      call.version = counted.resourceVersionI := by
    simpa using listed
  have ordered := exec_callsOrdered run below callsOrdered_init
  refine ⟨call, found, ordered.stamped call (List.getElem?_mem found), fun now opts asked => ?_⟩
  -- the version at the end counts the bumps since the `List`
  have counts := exec_resourceVersionI postRun (below.drop countRun)
  have same : formatInt rt.resourceVersionI = opts.resourceVersion ↔
      ∀ event ∈ post, event.action.bumpsVersion = false := by
    rw [asked, version, formatInt_injective.eq_iff, Int64.ext_iff, counts]
    simp [List.countP_eq_zero]
  refine ⟨watch_expired_iff.trans ?_, fun still _ given => watch_opens (same.2 still) given⟩
  rw [Ne, same]
  simp

theorem versionLaw_stampsDistinct {rt : Runtime} (ordered : CallsOrdered rt)
    {first second : Nat} {callFirst callSecond : ListCall} (apart : first ≠ second)
    (foundFirst : rt.calls[first]? = some callFirst)
    (foundSecond : rt.calls[second]? = some callSecond) :
    formatInt callFirst.version ≠ formatInt callSecond.version := by
  intro same
  have distinct : (rt.calls.map (·.version.toInt)).Nodup := ordered.increasing.imp ne_of_lt
  refine apart (List.getElem?_inj (by simpa using (List.getElem?_eq_some_iff.1 foundFirst).1)
    distinct ?_)
  simp [foundFirst, foundSecond, formatInt_injective same]

/--
Over every run that keeps `resourceVersionI` below `math.MaxInt64`, every `List` and every
invalidation critical section increases the version and no other step changes it; a `Watch`
at the version string a `List` stamped fails with `ResourceExpired` exactly when a `List` or
an invalidation ran since that `List`'s increment; and no two `List` calls stamp the same
version string.
-/
theorem resourceVersion_law {events : List Event} {rt : Runtime}
    (run : exec cfg init events = some rt) (below : BelowMax cfg init events) :
    VersionLaw cfg events rt :=
  ⟨fun _ _ _ _ _ split ran stepped => versionLaw_moves below split ran stepped,
    fun _ _ _ _ split ran => versionLaw_watchAfterList run below split ran,
    fun _ _ _ _ apart foundFirst foundSecond =>
      versionLaw_stampsDistinct (exec_callsOrdered run below callsOrdered_init) apart
        foundFirst foundSecond⟩

/-- A `List`, an invalidation, and a `Watch` at the version the `List` returned, which the
invalidation has made stale. -/
theorem resourceVersion_law_stale_watch :
    let events : List Event :=
      [⟨0, .listCount⟩, ⟨0, .listQuery 0⟩, ⟨0, .listEnumerate 0 Enumerate.IterationOrder.stored⟩,
        ⟨1, .invalidate⟩, ⟨2, .watch ⟨"2", some (Int64.wrap 60)⟩⟩]
    ∃ rt, exec ⟨"kind", true, fun _ => ⟨[⟨"", "v1"⟩], [], []⟩⟩ init events = some rt ∧
      VersionLaw ⟨"kind", true, fun _ => ⟨[⟨"", "v1"⟩], [], []⟩⟩ events rt :=
  ⟨_, rfl, resourceVersion_law (by rfl) (belowMax_of_few (by decide))⟩

/-! ## `List` returns -/

/-- A `List` never blocks or panics: once its first critical section has run, its query and
its second critical section can run at any time from the clock on, and it returns its items
stamped with the string of its version. -/
theorem list_completes {rt : Runtime} {call : Nat} {version : Int64}
    (counted : rt.calls[call]? = some ⟨version, .counted⟩) {time : Nat} (later : rt.now ≤ time)
    (order : Enumerate.IterationOrder) :
    ∃ rt' result fetchedAt,
      exec cfg rt [⟨time, .listQuery call⟩, ⟨time, .listEnumerate call order⟩] = some rt' ∧
      rt'.calls[call]? = some ⟨version, .done result fetchedAt⟩ ∧
      result.resourceVersion = formatInt version := by
  have within := (List.getElem?_eq_some_iff.1 counted).1
  obtain ⟨items, listed⟩ := Option.isSome_iff_exists.1 (Enumerate.listItems_isSome
    cfg.includeSubresources rt.index order (formatInt version)
    (rt.cache.query cfg.server time).data)
  exact ⟨_, ⟨formatInt version, items⟩, _,
    by simp [exec, step, Nat.not_lt.2 later, apply, listQuery, counted, listEnumerate, within,
      listed]; rfl,
    by exact List.getElem?_set_self (by simpa using within), rfl⟩

/-- The first `List` from the start returns. -/
theorem list_completes_first :
    ∃ rt' result fetchedAt,
      exec ⟨"kind", true, fun _ => ⟨[], [], []⟩⟩ (listCount init)
        [⟨0, .listQuery 0⟩, ⟨0, .listEnumerate 0 Enumerate.IterationOrder.stored⟩] = some rt' ∧
      rt'.calls[0]? = some ⟨init.resourceVersionI.succ, .done result fetchedAt⟩ ∧
      result.resourceVersion = formatInt init.resourceVersionI.succ :=
  list_completes rfl (le_refl 0) _

end ApiWatch.Version
