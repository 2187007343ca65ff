import ApiWatch.SpecForest

/-!
# The subresource tree: `arMap.insert` and `arMap.toList`

`listWithSubresources` turns the flat resource names a group version reports (`pods`,
`pods/status`, ...) into nested specs.  It inserts each spec into an `arMap` under the
`/`-separated steps of its name; then `toList` walks the tree and emits one spec for each
tuple that holds one, with the specs emitted below it as its subresources.  A tuple with
no spec of its own is a gap: `toList` logs it and drops it with everything below it.

Go's map is an association list here, each step at most once, and a `RangeOrder` is the
order the `range` loop in `toList` visits it in.  The model computes each entry's spec in
storage order and hands them on in the visiting order; Go's loop gives the same output,
since one entry's spec does not depend on another's.

The tree means a partial map from paths of steps to specs (`specAt`).  `insertAll_specAt`
says that after a sequence of inserts the tree stores, at each path, the spec last
inserted there; the `emitted` lemmas say what `toList` emits from a tree with a given
meaning.  `toList_insertAll` puts the two together.
-/

namespace ApiWatch.SubresourceTree

open ApiWatch.Go ApiWatch.Ksmetav1a1 ApiWatch.SpecForest

/-- `arTuple`: for one step of a resource name, the spec inserted for the name that ends
there, if any, and the map one step further down. -/
inductive ArTuple where
  | mk (spec : Option APIResourceSpec) (subresources : List (String × ArTuple))

/-- `arMap`: from one step of a resource name to the tuple for it. -/
abbrev ArMap := List (String × ArTuple)

namespace ArTuple

/-- `arTuple.spec`. -/
def spec : ArTuple → Option APIResourceSpec
  | mk spec _ => spec

/-- `arTuple.subresources`. -/
def subresources : ArTuple → ArMap
  | mk _ subresources => subresources

/-- The tuple `insert` makes for a step not yet in the map. -/
def empty : ArTuple := mk none []

@[simp]
theorem spec_mk (spec : Option APIResourceSpec) (subresources : ArMap) :
    (mk spec subresources).spec = spec := rfl

@[simp]
theorem subresources_mk (spec : Option APIResourceSpec) (subresources : ArMap) :
    (mk spec subresources).subresources = subresources := rfl

@[simp]
theorem empty_spec : empty.spec = none := rfl

@[simp]
theorem empty_subresources : empty.subresources = [] := rfl

end ArTuple

/-- The recursion of the theorems below into a tuple's subresources, and into the rest of a
map, goes down in size. -/
theorem sizeOf_subresources_lt (key : String) (spec : Option APIResourceSpec)
    (subresources rest : ArMap) :
    sizeOf subresources < sizeOf ((key, ArTuple.mk spec subresources) :: rest) := by
  simp only [List.cons.sizeOf_spec, Prod.mk.sizeOf_spec, ArTuple.mk.sizeOf_spec]
  omega

theorem sizeOf_rest_lt (entry : String × ArTuple) (rest : ArMap) :
    sizeOf rest < sizeOf (entry :: rest) := by
  simp only [List.cons.sizeOf_spec]
  omega

/-- `am[step]`: the tuple stored for `step`, nil when there is none. -/
def get : ArMap → String → Option ArTuple
  | [], _ => none
  | (key, tuple) :: rest, step => if key = step then some tuple else get rest step

/-- `am[step] = tuple`. -/
def set : ArMap → String → ArTuple → ArMap
  | [], step, tuple => [(step, tuple)]
  | (key, old) :: rest, step, tuple =>
    if key = step then (step, tuple) :: rest else (key, old) :: set rest step tuple

/-- `art := am[name[0]]`, with a fresh empty tuple in place of nil. -/
def child (am : ArMap) (step : String) : ArTuple := (get am step).getD .empty

/--
`arMap.insert(name, spec)`: find or create the tuple for `name[0]`; store `spec` in it when
`name` has one step, otherwise insert the rest of `name` below it.  `name[0]` of an empty
slice panics, which is `none`.
-/
def insert : ArMap → List String → APIResourceSpec → Option ArMap
  | _, [], _ => none
  | am, step :: rest, spec =>
    if rest = [] then some (set am step (.mk (some spec) (child am step).subresources))
    else
      (insert (child am step).subresources rest spec).map fun subresources =>
        set am step (.mk (child am step).spec subresources)

/-- The inserts `listWithSubresources` makes, one per entry in turn:
`am.insert(strings.Split(name, "/"), spec)`. -/
def insertAll : ArMap → List (String × APIResourceSpec) → Option ArMap
  | am, [] => some am
  | am, (name, spec) :: rest => (insert am (split name '/') spec).bind fun am => insertAll am rest

mutual
/-- The spec `toList` emits for the entry `(step, tuple)`: `none` for a gap, a tuple with
no spec, which `toList` logs and skips with everything below it. -/
def emitTuple (order : RangeOrder (List String)) (path : List String) (step : String) :
    ArTuple → Option APIResourceSpec
  | .mk none _ => none
  | .mk (some spec) subresources =>
    some { spec with
      name := step
      subResources := spec.subResources ++
        (order.visit (path ++ [step]) (emitEntries order (path ++ [step]) subresources)).filterMap
          id }

/-- `emitTuple` for every entry of a map, in storage order. -/
def emitEntries (order : RangeOrder (List String)) (path : List String) :
    ArMap → List (Option APIResourceSpec)
  | [] => []
  | (step, tuple) :: rest => emitTuple order path step tuple :: emitEntries order path rest
end

/-- `arMap.toList(logger, prefix, consume)`: the specs the loop hands to `consume`, in the
order it visits the map at `prefix`. -/
def toList (order : RangeOrder (List String)) (path : List String) (am : ArMap) :
    List APIResourceSpec :=
  (order.visit path (emitEntries order path am)).filterMap id

/-- What `toList` emits, in storage order. -/
def emitted (order : RangeOrder (List String)) (path : List String) (am : ArMap) :
    List APIResourceSpec :=
  (emitEntries order path am).filterMap id

/-! ## Lookup and update -/

@[simp]
theorem get_nil (step : String) : get [] step = none := rfl

theorem get_cons (key step : String) (tuple : ArTuple) (rest : ArMap) :
    get ((key, tuple) :: rest) step = if key = step then some tuple else get rest step := rfl

@[simp]
theorem get_set (am : ArMap) (key step : String) (tuple : ArTuple) :
    get (set am key tuple) step = if key = step then some tuple else get am step := by
  induction am with
  | nil => rfl
  | cons entry rest ih =>
    obtain ⟨other, old⟩ := entry
    simp only [set, get_cons]
    split_ifs <;> simp_all [get_cons]

@[simp]
theorem child_set (am : ArMap) (key step : String) (tuple : ArTuple) :
    child (set am key tuple) step = if key = step then tuple else child am step := by
  simp only [child, get_set]
  split_ifs <;> rfl

@[simp]
theorem child_nil (step : String) : child [] step = .empty := rfl

theorem insert_single (am : ArMap) (step : String) (spec : APIResourceSpec) :
    insert am [step] spec =
      some (set am step (.mk (some spec) (child am step).subresources)) := by
  simp [insert]

theorem insert_cons {am : ArMap} {step : String} {rest : List String} (nonempty : rest ≠ [])
    (spec : APIResourceSpec) :
    insert am (step :: rest) spec =
      (insert (child am step).subresources rest spec).map fun subresources =>
        set am step (.mk (child am step).spec subresources) := by
  simp [insert, nonempty]

/-- An insert replaces the tuple of the name's first step and nothing else. -/
theorem insert_eq_set {am am' : ArMap} {step : String} {rest : List String}
    {spec : APIResourceSpec} (inserted : insert am (step :: rest) spec = some am') :
    ∃ tuple, am' = set am step tuple := by
  by_cases last : rest = []
  · subst last
    rw [insert_single] at inserted
    exact ⟨_, (Option.some.inj inserted).symm⟩
  · rw [insert_cons last] at inserted
    obtain ⟨_, -, rfl⟩ := Option.map_eq_some'.1 inserted
    exact ⟨_, rfl⟩

/-- `insert` panics only on an empty name. -/
theorem insert_isSome :
    ∀ (am : ArMap) {path : List String}, path ≠ [] → ∀ spec, (insert am path spec).isSome
  | _, [], nonempty, _ => absurd rfl nonempty
  | am, step :: rest, _, spec => by
    by_cases last : rest = []
    · simp [last, insert_single]
    · rw [insert_cons last]
      simpa using insert_isSome (child am step).subresources last spec

/-- The inserts of `listWithSubresources` never panic: `strings.Split` gives every name at
least one step. -/
theorem insertAll_isSome : ∀ (am : ArMap) (entries : List (String × APIResourceSpec)),
    (insertAll am entries).isSome
  | _, [] => rfl
  | am, (name, spec) :: rest => by
    obtain ⟨inserted, found⟩ := Option.isSome_iff_exists.1
      (insert_isSome am (split_ne_nil name '/') spec)
    simpa [insertAll, found] using insertAll_isSome inserted rest

/-! ## What a tree stores -/

/-- The spec a tree stores at a path of steps. -/
def specAt : ArMap → List String → Option APIResourceSpec
  | _, [] => none
  | am, step :: rest =>
    if rest = [] then (child am step).spec else specAt (child am step).subresources rest

@[simp]
theorem specAt_nil_path (am : ArMap) : specAt am [] = none := by
  simp [specAt]

theorem specAt_cons_eq (am : ArMap) (step : String) (rest : List String) :
    specAt am (step :: rest) =
      if rest = [] then (child am step).spec else specAt (child am step).subresources rest := by
  simp [specAt]

@[simp]
theorem specAt_empty : ∀ path, specAt [] path = none
  | [] => rfl
  | _ :: rest => by
    rw [specAt_cons_eq]
    split_ifs
    · rfl
    · exact specAt_empty rest

/-- An insert changes what the tree stores at its own path and nowhere else. -/
theorem insert_specAt :
    ∀ {am am' : ArMap} {path : List String} {spec : APIResourceSpec},
      insert am path spec = some am' →
        ∀ query, specAt am' query = if query = path then some spec else specAt am query
  | _, _, [], _, inserted, _ => by simp [insert] at inserted
  | _, _, _ :: _, _, _, [] => by simp
  | am, am', step :: rest, spec, inserted, other :: more => by
    by_cases same : step = other
    · subst same
      by_cases last : rest = []
      · subst last
        rw [insert_single, Option.some.injEq] at inserted
        subst inserted
        by_cases final : more = [] <;> simp [specAt_cons_eq, final]
      · rw [insert_cons last] at inserted
        obtain ⟨subresources, below, rfl⟩ := Option.map_eq_some'.1 inserted
        have below := insert_specAt below more
        by_cases final : more = [] <;> simp_all [specAt_cons_eq]
    · obtain ⟨tuple, rfl⟩ := insert_eq_set inserted
      simp [specAt_cons_eq, same, Ne.symm same]

/-- The spec of the last entry whose name splits into `path`. -/
def lastInsertedAt : List (String × APIResourceSpec) → List String → Option APIResourceSpec
  | [], _ => none
  | (name, spec) :: rest, path =>
    (lastInsertedAt rest path).or (if split name '/' = path then some spec else none)

/-- Some entry's name splits into `path`. -/
def Inserted (entries : List (String × APIResourceSpec)) (path : List String) : Prop :=
  ∃ entry ∈ entries, split entry.1 '/' = path

theorem or_ne_none_iff {α : Type} {first second : Option α} :
    first.or second ≠ none ↔ first ≠ none ∨ second ≠ none := by
  cases first <;> simp

theorem lastInsertedAt_ne_none_iff {entries : List (String × APIResourceSpec)}
    {path : List String} : lastInsertedAt entries path ≠ none ↔ Inserted entries path := by
  induction entries with
  | nil => exact ⟨fun found => absurd rfl found, fun ⟨_, mem, _⟩ => absurd mem (List.not_mem_nil _)⟩
  | cons entry rest ih =>
    obtain ⟨name, spec⟩ := entry
    rw [lastInsertedAt, or_ne_none_iff, ih, Inserted, Inserted, List.exists_mem_cons_iff]
    by_cases same : split name '/' = path
    · rw [if_pos same]
      exact iff_of_true (.inr (Option.some_ne_none _)) (.inl same)
    · rw [if_neg same]
      exact ⟨fun found => found.elim .inr (absurd rfl), fun found => found.elim (absurd · same) .inl⟩

/-- After a run of inserts the tree stores, at each path, the spec last inserted there. -/
theorem insertAll_specAt :
    ∀ {am am' : ArMap} {entries : List (String × APIResourceSpec)},
      insertAll am entries = some am' →
        ∀ query, specAt am' query = (lastInsertedAt entries query).or (specAt am query)
  | _, _, [], done, query => by cases done; simp [lastInsertedAt]
  | am, am', (name, spec) :: rest, done, query => by
    simp only [insertAll, Option.bind_eq_some] at done
    obtain ⟨middle, inserted, done⟩ := done
    rw [insertAll_specAt done, insert_specAt inserted, lastInsertedAt, Option.or_assoc]
    congr 1
    by_cases same : query = split name '/'
    · simp [same]
    · simp [same, Ne.symm same]

/-! ## Tidy trees -/

mutual
/-- A tuple as the inserts of `listWithSubresources` leave it: its spec, if any, has no
subresources of its own, and the map below it is tidy. -/
def TupleTidy : ArTuple → Prop
  | .mk spec subresources => (∀ stored ∈ spec, stored.subResources = []) ∧ MapTidy subresources

/-- Every step at most once in the map, and every tuple in it tidy. -/
def MapTidy : ArMap → Prop
  | [] => True
  | (step, tuple) :: rest => get rest step = none ∧ TupleTidy tuple ∧ MapTidy rest
end

@[simp]
theorem tupleTidy_mk (spec : Option APIResourceSpec) (subresources : ArMap) :
    TupleTidy (.mk spec subresources) ↔
      (∀ stored ∈ spec, stored.subResources = []) ∧ MapTidy subresources := by
  simp [TupleTidy]

@[simp]
theorem mapTidy_nil : MapTidy [] := by simp [MapTidy]

@[simp]
theorem mapTidy_cons (step : String) (tuple : ArTuple) (rest : ArMap) :
    MapTidy ((step, tuple) :: rest) ↔
      get rest step = none ∧ TupleTidy tuple ∧ MapTidy rest := by
  simp [MapTidy]

theorem MapTidy.child {am : ArMap} (tidy : MapTidy am) (step : String) :
    TupleTidy (child am step) := by
  induction am with
  | nil => simp [ArTuple.empty]
  | cons entry rest ih =>
    obtain ⟨key, tuple⟩ := entry
    rw [mapTidy_cons] at tidy
    by_cases same : key = step <;> simp [SubresourceTree.child, get_cons, same, tidy.2.1]
    exact ih tidy.2.2

theorem MapTidy.set {am : ArMap} (tidy : MapTidy am) (step : String) {tuple : ArTuple}
    (tupleTidy : TupleTidy tuple) : MapTidy (SubresourceTree.set am step tuple) := by
  induction am with
  | nil => simpa [SubresourceTree.set] using tupleTidy
  | cons entry rest ih =>
    obtain ⟨key, old⟩ := entry
    rw [mapTidy_cons] at tidy
    by_cases same : key = step
    · subst same
      simpa [SubresourceTree.set, tidy.1] using ⟨tupleTidy, tidy.2.2⟩
    · simpa [SubresourceTree.set, same, Ne.symm same, tidy.1, tidy.2.1] using ih tidy.2.2

theorem insert_tidy :
    ∀ {am am' : ArMap} {path : List String} {spec : APIResourceSpec},
      MapTidy am → spec.subResources = [] → insert am path spec = some am' → MapTidy am'
  | _, _, [], _, _, _, inserted => by simp [insert] at inserted
  | am, am', step :: rest, spec, tidy, flat, inserted => by
    have below := tidy.child step
    cases found : child am step with
    | mk stored subresources =>
      rw [found, tupleTidy_mk] at below
      by_cases last : rest = []
      · subst last
        rw [insert_single, Option.some.injEq, found] at inserted
        subst inserted
        exact tidy.set step (by simpa [flat] using below.2)
      · rw [insert_cons last, found] at inserted
        obtain ⟨subresources', belowInserted, rfl⟩ := Option.map_eq_some'.1 inserted
        exact tidy.set step ⟨below.1, insert_tidy below.2 flat belowInserted⟩

theorem insertAll_tidy :
    ∀ {am am' : ArMap} {entries : List (String × APIResourceSpec)},
      MapTidy am → (∀ entry ∈ entries, entry.2.subResources = []) →
        insertAll am entries = some am' → MapTidy am'
  | _, _, [], tidy, _, done => by cases done; exact tidy
  | _, _, (_, _) :: _, tidy, flat, done => by
    simp only [insertAll, Option.bind_eq_some] at done
    obtain ⟨middle, inserted, done⟩ := done
    exact insertAll_tidy (insert_tidy tidy (flat _ (List.mem_cons_self _ _)) inserted)
      (fun entry mem => flat entry (List.mem_cons_of_mem _ mem)) done

/-! ## What `toList` emits -/

/-- Every nonempty prefix of `path`, `path` included, has a spec in the tree: the paths
`toList` emits a spec for. -/
def Reached (am : ArMap) (path : List String) : Prop :=
  path ≠ [] ∧ ∀ stem, stem <+: path → stem ≠ [] → specAt am stem ≠ none

theorem child_cons (key step : String) (tuple : ArTuple) (rest : ArMap) :
    child ((key, tuple) :: rest) step = if key = step then tuple else child rest step := by
  simp only [child, get_cons]
  split_ifs <;> rfl

theorem reached_cons_iff {am : ArMap} {step : String} {rest : List String} :
    Reached am (step :: rest) ↔
      (child am step).spec ≠ none ∧ (rest = [] ∨ Reached (child am step).subresources rest) := by
  simp only [Reached, ne_eq, List.cons_ne_nil, not_false_eq_true, true_and, List.prefix_cons_iff]
  constructor
  · intro all
    have head := all [step] (.inr ⟨[], rfl, List.nil_prefix⟩) (by simp)
    refine ⟨by simpa [specAt_cons_eq] using head, ?_⟩
    by_cases last : rest = []
    · exact .inl last
    · refine .inr ⟨last, fun stem isStem nonempty => ?_⟩
      have := all (step :: stem) (.inr ⟨stem, rfl, isStem⟩) (by simp)
      rwa [specAt_cons_eq, if_neg nonempty] at this
  · rintro ⟨head, below⟩ stem (rfl | ⟨tail, rfl, isStem⟩) nonempty
    · exact absurd rfl nonempty
    · rw [specAt_cons_eq]
      split_ifs with last
      · exact head
      · rcases below with rfl | ⟨-, below⟩
        · exact absurd (List.prefix_nil.1 isStem) last
        · exact below tail isStem last

theorem Reached.get_ne_none {am : ArMap} {step : String} {rest : List String}
    (reached : Reached am (step :: rest)) : get am step ≠ none := fun absent =>
  (reached_cons_iff.1 reached).1 (by simp [child, absent])

/-- A path a tidy map's tail reaches keeps its meaning in the whole map. -/
theorem lift_rest {key : String} (tuple : ArTuple) {rest : ArMap} (absent : get rest key = none)
    {path : List String} (reached : Reached rest path) :
    ∃ step tail, path = step :: tail ∧ step ≠ key ∧
      Reached ((key, tuple) :: rest) path ∧ specAt ((key, tuple) :: rest) path = specAt rest path := by
  obtain ⟨step, tail, rfl⟩ := List.exists_cons_of_ne_nil reached.1
  have different : key ≠ step := fun same => reached.get_ne_none (same ▸ absent)
  refine ⟨step, tail, rfl, Ne.symm different, ?_, ?_⟩
  · rwa [reached_cons_iff, child_cons, if_neg different, ← reached_cons_iff]
  · rw [specAt_cons_eq, specAt_cons_eq, child_cons, if_neg different]

@[simp]
theorem emitted_nil (order : RangeOrder (List String)) (path : List String) :
    emitted order path [] = [] := rfl

theorem emitted_cons_none (order : RangeOrder (List String)) (path : List String) (key : String)
    (subresources rest : ArMap) :
    emitted order path ((key, .mk none subresources) :: rest) = emitted order path rest := rfl

theorem emitted_cons_some (order : RangeOrder (List String)) (path : List String) (key : String)
    (stored : APIResourceSpec) (subresources rest : ArMap) :
    emitted order path ((key, .mk (some stored) subresources) :: rest) =
      { stored with
        name := key
        subResources := stored.subResources ++ toList order (path ++ [key]) subresources } ::
        emitted order path rest := rfl

theorem toList_perm (order : RangeOrder (List String)) (path : List String) (am : ArMap) :
    List.Perm (toList order path am) (emitted order path am) :=
  (order.visit_perm path _).filterMap id

/-- What `toList` emits from a tidy tree is, at each path it reaches, the spec stored there
with the path's last step as its name. -/
theorem mem_emitted (order : RangeOrder (List String)) :
    ∀ {am : ArMap} {path base nodePath : List String} {spec : APIResourceSpec}, MapTidy am →
      (nodePath, spec) ∈ forestNodes base (emitted order path am) →
        ∃ rel, nodePath = base ++ rel ∧ Reached am rel ∧ rel.getLast? = some spec.name ∧
          ∃ stored, specAt am rel = some stored ∧
            spec = { stored with name := spec.name, subResources := spec.subResources }
  | [], _, _, _, _, _, mem => by simp at mem
  | (key, .mk none subresources) :: rest, path, base, nodePath, spec, tidy, mem => by
    rw [mapTidy_cons] at tidy
    rw [emitted_cons_none] at mem
    obtain ⟨rel, rfl, reached, last, stored, found, same⟩ := mem_emitted order tidy.2.2 mem
    obtain ⟨-, -, -, -, lifted, sameSpec⟩ := lift_rest (.mk none subresources) tidy.1 reached
    exact ⟨rel, rfl, lifted, last, stored, sameSpec ▸ found, same⟩
  | (key, .mk (some stored) subresources) :: rest, path, base, nodePath, spec, tidy, mem => by
    simp only [mapTidy_cons, tupleTidy_mk, Option.mem_def, Option.some.injEq, forall_eq'] at tidy
    obtain ⟨absent, ⟨flat, subTidy⟩, restTidy⟩ := tidy
    rw [emitted_cons_some, forestNodes_cons, nodes_eq] at mem
    simp only [flat, List.nil_append, List.cons_append, List.mem_cons, List.mem_append,
      Prod.mk.injEq] at mem
    have here : (child ((key, .mk (some stored) subresources) :: rest) key) =
        .mk (some stored) subresources := by simp [child_cons]
    rcases mem with ⟨rfl, rfl⟩ | mem | mem
    · exact ⟨[key], rfl, reached_cons_iff.2 ⟨by simp [here], .inl rfl⟩, rfl, stored,
        by simp [specAt_cons_eq, here], rfl⟩
    · obtain ⟨rel, rfl, reached, last, stored', found, same⟩ :=
        mem_emitted order subTidy ((forestNodes_perm (toList_perm ..)).subset mem)
      obtain ⟨step, tail, rfl⟩ := List.exists_cons_of_ne_nil reached.1
      refine ⟨key :: step :: tail, by simp, reached_cons_iff.2 ⟨by simp [here], .inr ?_⟩,
        by simpa using last, stored', ?_, same⟩
      · simpa [here] using reached
      · rwa [specAt_cons_eq, if_neg (List.cons_ne_nil _ _), here]
    · obtain ⟨rel, rfl, reached, last, stored', found, same⟩ := mem_emitted order restTidy mem
      obtain ⟨-, -, -, -, lifted, sameSpec⟩ :=
        lift_rest (.mk (some stored) subresources) absent reached
      exact ⟨rel, rfl, lifted, last, stored', sameSpec ▸ found, same⟩
termination_by am _ _ _ _ _ _ => am
decreasing_by
  · exact sizeOf_rest_lt ..
  · exact sizeOf_subresources_lt ..
  · exact sizeOf_rest_lt ..

/-- `toList` emits a spec at every path the tree reaches. -/
theorem reached_mem_emitted (order : RangeOrder (List String)) :
    ∀ {am : ArMap} {path base rel : List String}, MapTidy am → Reached am rel →
      ∃ spec, (base ++ rel, spec) ∈ forestNodes base (emitted order path am)
  | [], _, _, _, _, reached => by
    obtain ⟨_, _, rfl⟩ := List.exists_cons_of_ne_nil reached.1
    exact absurd rfl reached.get_ne_none
  | (key, .mk stored subresources) :: rest, path, base, rel, tidy, reached => by
    rw [mapTidy_cons, tupleTidy_mk] at tidy
    obtain ⟨absent, ⟨flat, subTidy⟩, restTidy⟩ := tidy
    obtain ⟨step, tail, rfl⟩ := List.exists_cons_of_ne_nil reached.1
    by_cases same : key = step
    · subst same
      rw [reached_cons_iff, child_cons, if_pos rfl] at reached
      obtain ⟨found, below⟩ := reached
      obtain ⟨stored, rfl⟩ := Option.ne_none_iff_exists'.1 found
      rw [emitted_cons_some, forestNodes_cons, nodes_eq]
      simp only [flat stored rfl, List.nil_append]
      rcases below with rfl | below
      · exact ⟨_, List.mem_append_left _ (List.mem_cons_self _ _)⟩
      · obtain ⟨spec, mem⟩ :=
          @reached_mem_emitted order _ (path ++ [key]) (base ++ [key]) _ subTidy below
        refine ⟨spec, List.mem_append_left _ (List.mem_cons_of_mem _ ?_)⟩
        simpa using (forestNodes_perm (toList_perm ..)).symm.subset mem
    · rw [reached_cons_iff, child_cons, if_neg same, ← reached_cons_iff] at reached
      obtain ⟨spec, mem⟩ := @reached_mem_emitted order _ path base _ restTidy reached
      cases stored with
      | none => exact ⟨spec, by rwa [emitted_cons_none]⟩
      | some stored => exact ⟨spec, by simp [emitted_cons_some, mem]⟩
termination_by am _ _ _ _ _ => am
decreasing_by
  · exact sizeOf_subresources_lt ..
  · exact sizeOf_rest_lt ..

/-- A node emitted from the tail of a tidy map sits under a first step other than the
head's. -/
theorem emitted_rest_head_ne (order : RangeOrder (List String)) {key : String} {rest : ArMap}
    (absent : get rest key = none) (restTidy : MapTidy rest) {path base nodePath : List String}
    {spec : APIResourceSpec} (mem : (nodePath, spec) ∈ forestNodes base (emitted order path rest)) :
    ∃ step tail, nodePath = base ++ step :: tail ∧ step ≠ key := by
  obtain ⟨rel, rfl, reached, -⟩ := mem_emitted order restTidy mem
  obtain ⟨step, tail, rfl, different, -⟩ := lift_rest .empty absent reached
  exact ⟨step, tail, rfl, different⟩

/-- `toList` emits at most one spec per path. -/
theorem emitted_paths_nodup (order : RangeOrder (List String)) :
    ∀ {am : ArMap} {path base : List String}, MapTidy am →
      ((forestNodes base (emitted order path am)).map Prod.fst).Nodup
  | [], _, _, _ => by simp
  | (key, .mk none subresources) :: rest, path, base, tidy => by
    rw [emitted_cons_none]
    exact emitted_paths_nodup order ((mapTidy_cons ..).1 tidy).2.2
  | (key, .mk (some stored) subresources) :: rest, path, base, tidy => by
    simp only [mapTidy_cons, tupleTidy_mk, Option.mem_def, Option.some.injEq, forall_eq'] at tidy
    obtain ⟨absent, ⟨flat, subTidy⟩, restTidy⟩ := tidy
    have subPaths : ∀ p ∈ (forestNodes (base ++ [key])
        (toList order (path ++ [key]) subresources)).map Prod.fst,
        ∃ tail, tail ≠ [] ∧ p = base ++ key :: tail := by
      intro p mem
      obtain ⟨⟨p, spec⟩, nodeMem, rfl⟩ := List.mem_map.1 mem
      obtain ⟨tail, nonempty, rfl⟩ := mem_forestNodes_extends nodeMem
      exact ⟨tail, nonempty, by simp⟩
    have restFresh : ∀ tail, base ++ key :: tail ∉
        (forestNodes base (emitted order path rest)).map Prod.fst := by
      intro tail mem
      obtain ⟨⟨p, spec⟩, nodeMem, same⟩ := List.mem_map.1 mem
      obtain ⟨step, tail', rfl, different⟩ := emitted_rest_head_ne order absent restTidy nodeMem
      simp only [List.append_cancel_left_eq, List.cons.injEq] at same
      exact different same.1
    have subDistinct := ((@forestNodes_perm (base ++ [key]) _ _
      (toList_perm order (path ++ [key]) subresources)).map Prod.fst).nodup_iff.2
        (emitted_paths_nodup order subTidy)
    rw [emitted_cons_some, forestNodes_cons, nodes_eq]
    simp only [flat, List.nil_append, List.cons_append, List.map_cons, List.map_append,
      List.nodup_cons, List.nodup_append, List.mem_append, not_or]
    refine ⟨⟨fun mem => ?_, fun mem => ?_⟩, subDistinct, emitted_paths_nodup order restTidy,
      fun p inSub inRest => ?_⟩
    · obtain ⟨tail, nonempty, same⟩ := subPaths _ mem
      simp only [List.append_cancel_left_eq, List.cons.injEq, true_and] at same
      exact nonempty same.symm
    · exact restFresh [] mem
    · obtain ⟨tail, -, rfl⟩ := subPaths _ inSub
      exact restFresh tail inRest
termination_by am _ _ _ => am
decreasing_by
  · exact sizeOf_rest_lt ..
  · exact sizeOf_subresources_lt ..
  · exact sizeOf_rest_lt ..

/-- Every nonempty prefix of `path`, `path` included, was inserted: no gap lies above it. -/
def Admitted (entries : List (String × APIResourceSpec)) (path : List String) : Prop :=
  path ≠ [] ∧ ∀ stem, stem <+: path → stem ≠ [] → Inserted entries stem

theorem reached_insertAll_iff {entries : List (String × APIResourceSpec)} {am : ArMap}
    (built : insertAll [] entries = some am) (path : List String) :
    Reached am path ↔ Admitted entries path := by
  simp only [Reached, Admitted, insertAll_specAt built, specAt_empty, Option.or_none,
    lastInsertedAt_ne_none_iff]

/--
What `toList` should emit for a sequence of inserts, stated on the flattened output `out`:
one spec for each path all of whose nonempty prefixes were inserted and for no other path;
that spec is the one last inserted at its path, named after the path's last step; and its
subresources are the specs emitted one step below it.
-/
def EmitsInserted (entries : List (String × APIResourceSpec))
    (out : List (List String × APIResourceSpec)) : Prop :=
  (out.map Prod.fst).Nodup ∧
  (∀ path, path ∈ out.map Prod.fst ↔ Admitted entries path) ∧
  ∀ path spec, (path, spec) ∈ out →
    path.getLast? = some spec.name ∧
    (∃ stored, lastInsertedAt entries path = some stored ∧
      spec = { stored with name := spec.name, subResources := spec.subResources }) ∧
    List.Perm (spec.subResources.map fun child => (path ++ [child.name], child))
      (out.filter fun node => decide (ChildPath path node.1))

/-- A tree built from inserts of specs with no subresources of their own: `toList` emits what
`EmitsInserted` says, whatever order it visits the maps in. -/
theorem insertAll_emitsInserted {entries : List (String × APIResourceSpec)}
    (flat : ∀ entry ∈ entries, entry.2.subResources = []) {am : ArMap}
    (built : insertAll [] entries = some am) (order : RangeOrder (List String)) :
    EmitsInserted entries (forestNodes [] (toList order [] am)) := by
  have tidy := insertAll_tidy mapTidy_nil flat built
  have perm := @forestNodes_perm [] _ _ (toList_perm order [] am)
  have distinct : ((forestNodes [] (toList order [] am)).map Prod.fst).Nodup :=
    (perm.map Prod.fst).nodup_iff.2 (emitted_paths_nodup order tidy)
  refine ⟨distinct, fun path => ⟨fun mem => ?_, fun admitted => ?_⟩, fun path spec mem => ?_⟩
  · obtain ⟨⟨_, spec⟩, nodeMem, rfl⟩ := List.mem_map.1 mem
    obtain ⟨rel, rfl, reached, -⟩ := mem_emitted order tidy (perm.subset nodeMem)
    simpa [reached_insertAll_iff built] using reached
  · obtain ⟨spec, mem⟩ := @reached_mem_emitted order _ [] [] _ tidy
      ((reached_insertAll_iff built path).2 admitted)
    exact List.mem_map.2 ⟨(path, spec), perm.symm.subset (by simpa using mem), rfl⟩
  · obtain ⟨rel, same, -, last, stored, found, shape⟩ := mem_emitted order tidy (perm.subset mem)
    simp only [List.nil_append] at same
    subst same
    refine ⟨last, ⟨stored, ?_, shape⟩, subResources_perm_children distinct mem⟩
    simpa [insertAll_specAt built] using found

/-- Inserting any sequence of resource names with specs that have no subresources of their
own never panics, and `toList` then emits what `EmitsInserted` says, whatever order it
visits the maps in. -/
theorem toList_insertAll (entries : List (String × APIResourceSpec))
    (flat : ∀ entry ∈ entries, entry.2.subResources = []) :
    ∃ am, insertAll [] entries = some am ∧
      ∀ order : RangeOrder (List String),
        EmitsInserted entries (forestNodes [] (toList order [] am)) :=
  have ⟨am, built⟩ := Option.isSome_iff_exists.1 (insertAll_isSome [] entries)
  ⟨am, built, insertAll_emitsInserted flat built⟩

theorem toList_insertAll_pods :
    ∃ am, insertAll [] [("pods", ⟨"pods", "pod", true, "", "v1", "Pod", [], [], []⟩),
        ("pods/status", ⟨"pods/status", "", true, "", "v1", "Pod", [], [], []⟩)] = some am ∧
      ∀ order : RangeOrder (List String),
        EmitsInserted [("pods", ⟨"pods", "pod", true, "", "v1", "Pod", [], [], []⟩),
            ("pods/status", ⟨"pods/status", "", true, "", "v1", "Pod", [], [], []⟩)]
          (forestNodes [] (toList order [] am)) :=
  toList_insertAll _ (by simp)

end ApiWatch.SubresourceTree
