import ApiWatch.Catalog

/-!
# The definer index over runs

`InvalidateWithDefiner(obj, supplier, set)` declares which resources the definer `obj`
defines: what the supplier's enumerator yields when `set` is true, and nothing when it is
false.  What the index is for is the map from each definer to its latest declaration in the
run.  This module states that map over the run's events and proves that the index of every
state a run reaches is it: `definerToRscs` holds each definer's latest declaration without
repeats, and `rscToDefiners` holds, each once, the definers whose latest declaration names a
resource.  The definers that `enumAPIResourcesLocked` attaches to a resource are therefore
read off the latest declarations, whatever order the loop over the set takes.
-/

namespace ApiWatch.Definers

open ApiWatch.Metav1 ApiWatch.Schema ApiWatch.DefinerIndex ApiWatch.Enumerate ApiWatch.Catalog

variable {cfg : Config}

/-! ## Latest declarations -/

/-- The `objectID` that `invalidateWithDefinerLocked` files a notification's definer under;
none when the object is not a `metav1.Object`. -/
def definerOf (note : Notification) : Option ObjectID :=
  note.name.map fun name => ⟨note.gvk.toAPIVersionAndKind.1, note.gvk.toAPIVersionAndKind.2, name⟩

/-- What an action declares about the definer `oid`: an `InvalidateWithDefiner` naming it
declares what its enumerator yields, or nothing when `set` is false. -/
def declaration (oid : ObjectID) : Action → Option (List GroupVersionResource)
  | .invalidateWithDefiner (some note) set =>
    if definerOf note = some oid then some (if set then note.defined else []) else none
  | _ => none

/-- The resources the definer `oid` last declared in a run; none before it declares any. -/
def declared (events : List Event) (oid : ObjectID) : List GroupVersionResource :=
  (events.reverse.findSome? fun event => declaration oid event.action).getD []

theorem declared_append_singleton (events : List Event) (event : Event) (oid : ObjectID) :
    declared (events ++ [event]) oid = (declaration oid event.action).getD (declared events oid) := by
  simp only [declared, List.reverse_append, List.reverse_cons, List.reverse_nil, List.nil_append,
    List.singleton_append, List.findSome?_cons]
  cases declaration oid event.action <;> rfl

/-! ## What a step does to the index -/

/-- Without a definer the index is kept; a definer that does not panic is a `metav1.Object`,
and its new set is installed under its `objectID`. -/
theorem invalidateWithDefinerLocked_index {rt rt' : Runtime} {now : Nat}
    {definer : Option Notification} {set : Bool}
    (h : invalidateWithDefinerLocked rt now definer set = some rt') :
    match definer with
    | none => rt'.index = rt.index
    | some note => ∃ oid, definerOf note = some oid ∧
        rt'.index = setDefinerLocked rt.index oid (if set then note.defined else []) := by
  cases definer with
  | none =>
    obtain rfl := Option.some.inj h
    rfl
  | some note =>
    dsimp only [invalidateWithDefinerLocked] at h
    cases named : note.name with
    | none => simp only [named] at h; cases h
    | some name =>
      simp only [named] at h
      split at h
      · cases h
      · obtain rfl := Option.some.inj h
        exact ⟨_, by rw [definerOf, named, Option.map_some'], rfl⟩

/-- Only an `InvalidateWithDefiner` with a definer touches the index, and it installs that
definer's new set. -/
theorem apply_index {rt rt' : Runtime} {now : Nat} {action : Action}
    (h : apply cfg rt now action = some rt') :
    (∃ note set oid, action = .invalidateWithDefiner (some note) set ∧ definerOf note = some oid ∧
      rt'.index = setDefinerLocked rt.index oid (if set then note.defined else [])) ∨
    ((∀ oid, declaration oid action = none) ∧ rt'.index = rt.index) := by
  cases apply_effect h
  case invalidateWithDefiner definer _ _ =>
    have index := invalidateWithDefinerLocked_index (by simpa only [apply] using h)
    cases definer with
    | none => exact .inr ⟨fun _ => rfl, index⟩
    | some note =>
      obtain ⟨oid, named, index⟩ := index
      exact .inl ⟨note, _, oid, rfl, named, index⟩
  all_goals exact .inr ⟨fun _ => rfl, rfl⟩

/-- A run that does not panic was handed only definers that are `metav1.Object`s: each has the
`objectID` it is filed under. -/
theorem exec_filed {events : List Event} {rt : Runtime} (run : exec cfg init events = some rt) :
    ∀ event ∈ events, ∀ note set, event.action = .invalidateWithDefiner (some note) set →
      ∃ oid, definerOf note = some oid := by
  refine exec_preserves_history (fun events _ => ∀ event ∈ events, ∀ note set,
    event.action = .invalidateWithDefiner (some note) set → ∃ oid, definerOf note = some oid)
    (fun _ mem => absurd mem (List.not_mem_nil _)) (fun filed stepped => ?_) run
  intro event mem note set action
  rcases List.mem_append.1 mem with earlier | last
  · exact filed event earlier note set action
  · have applied := (step_eq_some.1 stepped).2
    rw [← List.mem_singleton.1 last, action] at applied
    obtain ⟨oid, named, -⟩ := invalidateWithDefinerLocked_index (by simpa only [apply] using applied)
    exact ⟨oid, named⟩

/-! ## The index is the map of latest declarations -/

/-- The index holds the latest declarations: each definer's forward entry is its latest
declaration without repeats, and the two maps mirror each other. -/
structure Declares (events : List Event) (index : Index) : Prop where
  mirrored : index.Mirrored
  latest : ∀ oid, index.definerToRscs oid = (declared events oid).dedup

/-- A definer is listed for a resource exactly when its latest declaration names it. -/
theorem Declares.mem_rscToDefiners {events : List Event} {index : Index}
    (declares : Declares events index) (oid : ObjectID) (gvr : GroupVersionResource) :
    oid ∈ index.rscToDefiners gvr ↔ gvr ∈ declared events oid := by
  rw [declares.mirrored.2, declares.latest, List.mem_dedup]

theorem Declares.step {events : List Event} {rt rt' : Runtime} {event : Event}
    (declares : Declares events rt.index) (h : step cfg rt event = some rt') :
    Declares (events ++ [event]) rt'.index := by
  rcases apply_index (step_eq_some.1 h).2 with ⟨note, set, filed, action, named, index⟩ |
    ⟨quiet, index⟩
  · rw [index]
    refine ⟨setDefinerLocked_mirrored declares.mirrored _ _, fun oid => ?_⟩
    rw [declared_append_singleton, action]
    by_cases same : filed = oid
    · subst same
      simp [setDefinerLocked, declaration, named]
    · simp [setDefinerLocked, declaration, named, same, Function.update_noteq (Ne.symm same),
        declares.latest]
  · rw [index]
    exact ⟨declares.mirrored, fun oid => by
      rw [declared_append_singleton, quiet, Option.getD_none, ← declares.latest]⟩

theorem exec_declares {events : List Event} {rt : Runtime} (run : exec cfg init events = some rt) :
    Declares events rt.index :=
  exec_preserves_history (fun events rt => Declares events rt.index)
    ⟨Index.empty_mirrored, fun _ => rfl⟩ (fun declares stepped => declares.step stepped) run

/-- Every spec `enumAPIResourcesLocked` builds on `index` carries one `Definer` for each
definer whose latest declaration in `events` names the resource's full name (its group, its
own version or else the list's, and its name): each such definer once, in the order the loop
over the set visits them, and no other. -/
def AttachesDeclared (events : List Event) (index : Index) : Prop :=
  ∀ (definerOrder : Go.RangeOrder (Nat × Nat)) (list : Nat) (gv : GroupVersion) (position : Nat)
    (rsc : Metav1.APIResource),
    ∃ definers : List ObjectID, definers.Nodup ∧
      (∀ oid, oid ∈ definers ↔
        ⟨gv.group, if rsc.version = "" then gv.version else rsc.version, rsc.name⟩ ∈
          declared events oid) ∧
      (resourceSpec index definerOrder list gv position rsc).definers =
        definers.map fun definer => ⟨definer.kind, definer.name⟩

theorem Declares.attaches {events : List Event} {index : Index} (declares : Declares events index) :
    AttachesDeclared events index := by
  intro definerOrder list gv position rsc
  let gvr : GroupVersionResource :=
    ⟨gv.group, if rsc.version = "" then gv.version else rsc.version, rsc.name⟩
  have visited := definerOrder.visit_perm (list, position) (index.rscToDefiners gvr)
  exact ⟨_, visited.nodup_iff.2 (declares.mirrored.1 gvr),
    fun oid => visited.mem_iff.trans (declares.mem_rscToDefiners oid gvr), rfl⟩

/-- In every run the index is the map of latest declarations, and the definers `List`
attaches to a resource are the ones whose latest declaration names it. -/
theorem definers_follow_declarations {events : List Event} {rt : Runtime}
    (run : exec cfg init events = some rt) :
    Declares events rt.index ∧ AttachesDeclared events rt.index :=
  have declares := exec_declares run
  ⟨declares, declares.attaches⟩

/-- A custom resource definition declares `widgets` of `example.com/v1`. -/
theorem definers_follow_declarations_crd :
    let events : List Event := [⟨0, .invalidateWithDefiner (some ⟨⟨"apiextensions.k8s.io", "v1",
      "CustomResourceDefinition"⟩, some "widgets.example.com", [⟨"example.com", "v1", "widgets"⟩]⟩) true⟩]
    ∃ rt, exec ⟨"kind", true, fun _ => ⟨[], [], []⟩⟩ init events = some rt ∧
      Declares events rt.index ∧ AttachesDeclared events rt.index :=
  ⟨_, rfl, @definers_follow_declarations ⟨"kind", true, fun _ => ⟨[], [], []⟩⟩ _ _ rfl⟩

end ApiWatch.Definers
